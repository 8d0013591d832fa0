import GradualTypes.InheritanceGraph

/-! Resolution order. The bases of a class are merged so that every class comes before its own bases and
bases keep their recorded order (C3). Where no such order exists, or a cycle is met, the order is depth
first instead. -/
namespace GradualTypes.InheritanceGraph

/- The first head that stands behind no other class in any sequence. -/
def nextHead? (seqs : List (List ClassId)) : Option ClassId :=
  (seqs.filterMap List.head?).find? (fun h => seqs.all (fun s => !s.tail.contains h))

def dropHead (h : ClassId) : List ClassId → List ClassId
  | [] => []
  | c :: s => if c = h then s else c :: s

theorem dropHeadLength (h : ClassId) (s : List ClassId) : (dropHead h s).length ≤ s.length := by
  cases s with
  | nil => simp [dropHead]
  | cons c s => by_cases e : c = h <;> simp [dropHead, e]

def advance (h : ClassId) (seqs : List (List ClassId)) : List (List ClassId) := seqs.map (dropHead h)

def totalLength (seqs : List (List ClassId)) : Nat := seqs.foldr (fun s n => s.length + n) 0

@[simp] theorem totalLengthCons (s : List ClassId) (rest : List (List ClassId)) :
    totalLength (s :: rest) = s.length + totalLength rest := by simp [totalLength]

@[simp] theorem advanceCons (h : ClassId) (s : List ClassId) (rest : List (List ClassId)) :
    advance h (s :: rest) = dropHead h s :: advance h rest := rfl

theorem advanceLength (h : ClassId) (seqs : List (List ClassId)) :
    totalLength (advance h seqs) ≤ totalLength seqs := by
  induction seqs with
  | nil => exact Nat.le_refl _
  | cons s rest ih =>
    have := dropHeadLength h s
    simp only [advanceCons, totalLengthCons]
    omega

theorem advanceLess {h : ClassId} {seqs : List (List ClassId)}
    (head : h ∈ seqs.filterMap List.head?) : totalLength (advance h seqs) < totalLength seqs := by
  induction seqs with
  | nil => simp at head
  | cons s rest ih =>
    simp only [advanceCons, totalLengthCons]
    cases s with
    | nil => simpa [dropHead] using ih (by simpa using head)
    | cons c s =>
      by_cases e : c = h
      · have := advanceLength h rest
        simp only [dropHead, e, if_true, List.length_cons]
        omega
      · have later : h ∈ rest.filterMap List.head? := by
          simp only [List.filterMap_cons, List.head?_cons, List.mem_cons] at head
          exact head.resolve_left (fun same => e same.symm)
        have := ih later
        simp only [dropHead, e, if_false]
        omega

def merge (seqs : List (List ClassId)) : Option (List ClassId) :=
  if seqs.all List.isEmpty then some []
  else
    match _next : nextHead? seqs with
    | none => none
    | some h => (merge (advance h seqs)).map (h :: ·)
termination_by totalLength seqs
decreasing_by exact advanceLess (List.mem_of_find?_eq_some _next)

/- The classes on `path` are being linearized already; meeting one again is a cycle. -/
def linearizeWithin (g : InheritanceGraph) (path : List ClassId) (c : ClassId) : Option (List ClassId) :=
  if _fresh : c ∈ path then none
  else do
    let above ← (g.bases c).attach.mapM (fun b => g.linearizeWithin (c :: path) b.val)
    let rest ← merge (above ++ [g.bases c])
    some (c :: rest)
termination_by g.reserve path
decreasing_by exact g.reserveBase _fresh b.property

def linearize (g : InheritanceGraph) (c : ClassId) : Option (List ClassId) := g.linearizeWithin [] c

def resolutionOrder (g : InheritanceGraph) (c : ClassId) : List ClassId :=
  (g.linearize c).getD (g.depthFirstOrder c)

/- The first class in the resolution order of `a` that `b` is derived from as well. -/
def commonAncestor? (g : InheritanceGraph) (a b : ClassId) : Option ClassId :=
  (g.resolutionOrder a).find? (fun c => g.isDerivedFrom b c)

end GradualTypes.InheritanceGraph
