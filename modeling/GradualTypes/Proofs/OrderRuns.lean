import GradualTypes.Proofs.ResolutionOrder

/-! Runs of the search and of the resolution order, turn by turn. A run may use up the turns of a loop or the
depth of a recursion that it was given, and reading the head or the rest of an empty sequence is a fault.
Given enough turns neither happens, whatever the graph, and the run gives what the definitions say. -/
namespace GradualTypes.InheritanceGraph

inductive Fault where
  | emptySequence
  | noTurnsLeft
  deriving DecidableEq, Repr

def readHead : List ClassId → Except Fault ClassId
  | [] => .error .emptySequence
  | c :: _ => .ok c

def readTail : List ClassId → Except Fault (List ClassId)
  | [] => .error .emptySequence
  | _ :: s => .ok s

/- Whether the class stands behind another one in one of the sequences. -/
def runBehind (h : ClassId) : List (List ClassId) → Except Fault Bool
  | [] => .ok false
  | s :: rest => do
    let tail ← readTail s
    if h ∈ tail then .ok true else runBehind h rest

/- The first head that stands behind no other class in any of `seqs`. -/
def runNext (seqs : List (List ClassId)) : List (List ClassId) → Except Fault (Option ClassId)
  | [] => .ok none
  | s :: rest => do
    let h ← readHead s
    if ← runBehind h seqs then runNext seqs rest else .ok (some h)

def runAdvance (h : ClassId) : List (List ClassId) → Except Fault (List (List ClassId))
  | [] => .ok []
  | s :: rest => do
    let c ← readHead s
    let left ← if c = h then readTail s else .ok s
    let others ← runAdvance h rest
    .ok (left :: others)

def remaining (seqs : List (List ClassId)) : List (List ClassId) := seqs.filter (fun s => !s.isEmpty)

def runMerge : Nat → List (List ClassId) → Except Fault (Option (List ClassId))
  | 0, _ => .error .noTurnsLeft
  | turns + 1, seqs =>
    let left := remaining seqs
    if left = [] then .ok (some [])
    else do
      match ← runNext left left with
      | none => .ok none
      | some h =>
        let moved ← runAdvance h left
        let order ← runMerge turns moved
        .ok (order.map (h :: ·))

/- Stops at the first that has no answer. -/
def runAll {α β : Type} (f : α → Except Fault (Option β)) : List α → Except Fault (Option (List β))
  | [] => .ok (some [])
  | a :: rest => do
    match ← f a with
    | none => .ok none
    | some b =>
      let others ← runAll f rest
      .ok (others.map (b :: ·))

/- The bases are linearized one level further down. -/
def runLinearize (g : InheritanceGraph) : Nat → List ClassId → ClassId → Except Fault (Option (List ClassId))
  | 0, _, _ => .error .noTurnsLeft
  | turns + 1, path, c =>
    if c ∈ path then .ok none
    else do
      match ← runAll (g.runLinearize turns (c :: path)) (g.bases c) with
      | none => .ok none
      | some above =>
        let rest ← runMerge turns (above ++ [g.bases c])
        .ok (rest.map (c :: ·))

def runDepthFirst (g : InheritanceGraph) : Nat → List ClassId → List ClassId → Except Fault (List ClassId)
  | 0, _, _ => .error .noTurnsLeft
  | _ + 1, _, [] => .ok []
  | turns + 1, seen, c :: stack =>
    if c ∈ seen then g.runDepthFirst turns seen stack
    else do
      let later ← g.runDepthFirst turns (c :: seen) (g.bases c ++ stack)
      .ok (c :: later)

def runSearch (g : InheritanceGraph) (ancestor : ClassId) : Nat → List ClassId → List ClassId → Except Fault Bool
  | 0, _, _ => .error .noTurnsLeft
  | _ + 1, _, [] => .ok false
  | turns + 1, seen, c :: stack =>
    if c ∈ seen then g.runSearch ancestor turns seen stack
    else if ancestor ∈ g.bases c then .ok true
    else g.runSearch ancestor turns (c :: seen) (g.bases c ++ stack)

def runOrder (g : InheritanceGraph) (turns : Nat) (c : ClassId) : Except Fault (List ClassId) := do
  match ← g.runLinearize turns [] c with
  | some order => .ok order
  | none => g.runDepthFirst turns [] [c]

def runDerived (g : InheritanceGraph) (turns : Nat) (c ancestor : ClassId) : Except Fault Bool :=
  if c = ancestor then .ok true else g.runSearch ancestor turns [] [c]

variable {g : InheritanceGraph} {a c h : ClassId} {seqs left : List (List ClassId)} {turns : Nat}

theorem remainingFull (seqs : List (List ClassId)) : ∀ s ∈ remaining seqs, s ≠ [] := by
  simp [remaining]

theorem behindOk (full : ∀ s ∈ seqs, s ≠ []) :
    runBehind h seqs = .ok (!seqs.all (fun s => !s.tail.contains h)) := by
  induction seqs with
  | nil => rfl
  | cons s rest ih =>
    obtain ⟨first, others⟩ := List.forall_mem_cons.mp full
    obtain ⟨c, tail, rfl⟩ := List.exists_cons_of_ne_nil first
    by_cases behind : h ∈ tail <;> simp [runBehind, readTail, bind, Except.bind, behind, ih others]

theorem nextOk (whole : ∀ s ∈ seqs, s ≠ []) (full : ∀ s ∈ left, s ≠ []) : runNext seqs left =
    .ok ((left.filterMap List.head?).find? (fun h => seqs.all (fun s => !s.tail.contains h))) := by
  induction left with
  | nil => rfl
  | cons s rest ih =>
    obtain ⟨first, others⟩ := List.forall_mem_cons.mp full
    obtain ⟨c, tail, rfl⟩ := List.exists_cons_of_ne_nil first
    simp only [runNext, readHead, behindOk whole, ih others, bind, Except.bind, List.filterMap_cons,
      List.head?_cons, List.find?_cons]
    cases seqs.all (fun s => !s.tail.contains c) <;> rfl

theorem advanceOk (full : ∀ s ∈ seqs, s ≠ []) : runAdvance h seqs = .ok (advance h seqs) := by
  induction seqs with
  | nil => rfl
  | cons s rest ih =>
    obtain ⟨first, others⟩ := List.forall_mem_cons.mp full
    obtain ⟨c, tail, rfl⟩ := List.exists_cons_of_ne_nil first
    by_cases same : c = h <;>
      simp [runAdvance, readHead, readTail, dropHead, bind, Except.bind, same, ih others]

/- Empty sequences have no say in a merge. -/
theorem nextRemaining (seqs : List (List ClassId)) : nextHead? (remaining seqs) = nextHead? seqs := by
  have heads : ∀ l : List (List ClassId), (remaining l).filterMap List.head? = l.filterMap List.head? := by
    intro l
    induction l with
    | nil => rfl
    | cons s rest ih => cases s <;> simpa [remaining, List.filterMap_cons] using ih
  have tails : ∀ (h : ClassId) (l : List (List ClassId)),
      (remaining l).all (fun s => !s.tail.contains h) = l.all (fun s => !s.tail.contains h) := by
    intro h l
    induction l with
    | nil => rfl
    | cons s rest ih => cases s <;> simp_all [remaining]
  simp only [nextHead?, heads, tails]

theorem advanceRemaining (h : ClassId) (seqs : List (List ClassId)) :
    remaining (advance h (remaining seqs)) = remaining (advance h seqs) := by
  induction seqs with
  | nil => rfl
  | cons s rest ih =>
    cases s with
    | nil => exact ih
    | cons c s =>
      have parted : ∀ s l, remaining (s :: l) = remaining [s] ++ remaining l :=
        fun s l => List.filter_append [s] l
      have kept : remaining ((c :: s) :: rest) = (c :: s) :: remaining rest := rfl
      rw [kept, advanceCons, advanceCons, parted, ih, ← parted]

theorem remainingEmpty : remaining seqs = [] ↔ seqs.all List.isEmpty = true := by
  simp [remaining]

theorem alike {seqs seqs' : List (List ClassId)} (same : remaining seqs = remaining seqs') :
    (seqs.all List.isEmpty = true ↔ seqs'.all List.isEmpty = true) ∧ nextHead? seqs = nextHead? seqs' := by
  rw [← remainingEmpty, ← nextRemaining seqs, same, remainingEmpty, nextRemaining]
  exact ⟨Iff.rfl, rfl⟩

theorem mergeStep (more : ¬ seqs.all List.isEmpty = true) :
    merge seqs = (nextHead? seqs).bind fun h => (merge (advance h seqs)).map (h :: ·) := by
  rw [merge, if_neg more]
  split <;> simp_all

theorem mergeRemaining {seqs seqs' : List (List ClassId)} (same : remaining seqs = remaining seqs') :
    merge seqs = merge seqs' := by
  induction seqs using merge.induct generalizing seqs' with
  | case1 seqs done =>
    rw [merge, merge, if_pos done, if_pos ((alike same).1.mp done)]
  | case2 seqs more stuck =>
    rw [mergeStep more, mergeStep (mt (alike same).1.mpr more), ← (alike same).2, stuck]
    rfl
  | case3 seqs more h found ih =>
    have later : remaining (advance h seqs) = remaining (advance h seqs') := by
      rw [← advanceRemaining, same, advanceRemaining]
    rw [mergeStep more, mergeStep (mt (alike same).1.mpr more), ← (alike same).2, found]
    exact congrArg (Option.map (h :: ·)) (ih later)

theorem totalRemaining (seqs : List (List ClassId)) : totalLength (remaining seqs) = totalLength seqs := by
  induction seqs with
  | nil => rfl
  | cons s rest ih =>
    cases s with
    | nil =>
      have dropped : remaining ([] :: rest) = remaining rest := rfl
      simpa [dropped] using ih
    | cons c s =>
      have kept : remaining ((c :: s) :: rest) = (c :: s) :: remaining rest := rfl
      rw [kept, totalLengthCons, totalLengthCons, ih]

/- A merge needs one turn for each class in the sequences and a last one. -/
theorem mergeOk (enough : totalLength seqs < turns) : runMerge turns seqs = .ok (merge seqs) := by
  induction turns generalizing seqs with
  | zero => exact absurd enough (Nat.not_lt_zero _)
  | succ turns ih =>
    have full := remainingFull seqs
    rw [runMerge]
    by_cases spent : remaining seqs = []
    · rw [merge, if_pos (remainingEmpty.mp spent)]
      simp [spent]
    · have more : ¬ seqs.all List.isEmpty = true := fun done => spent (remainingEmpty.mpr done)
      have chosen : runNext (remaining seqs) (remaining seqs) = .ok (nextHead? seqs) := by
        rw [nextOk full full, ← nextRemaining seqs]
        rfl
      simp only [spent, if_false, chosen, bind, Except.bind, mergeStep more]
      cases next : nextHead? seqs with
      | none => rfl
      | some h =>
        rw [← nextRemaining] at next
        have less := advanceLess (List.mem_of_find?_eq_some next)
        rw [totalRemaining] at less
        have same : merge (advance h (remaining seqs)) = merge (advance h seqs) :=
          mergeRemaining (advanceRemaining h seqs)
        simp only [advanceOk full, ih (Nat.lt_of_lt_of_le less (Nat.le_of_lt_succ enough)), same]
        rfl

theorem allOk {α β : Type} {f : α → Except Fault (Option β)} {answer : α → Option β} {l : List α}
    (each : ∀ a ∈ l, f a = .ok (answer a)) : runAll f l = .ok (l.mapM answer) := by
  induction l with
  | nil => rfl
  | cons a rest ih =>
    obtain ⟨first, others⟩ := List.forall_mem_cons.mp each
    rw [runAll, first, ih others, List.mapM_cons]
    cases answer a <;> cases rest.mapM answer <;> rfl

/- Given enough turns, the run ends well with this answer. -/
def Settles {α : Type} (run : Nat → Except Fault α) (answer : α) : Prop :=
  ∃ enough, ∀ turns, enough ≤ turns → run turns = .ok answer

/- One turn goes to whatever was settled with the turns that are left. -/
theorem settlesAfter {α : Type} {run : Nat → Except Fault α} {answer : α} {p : Nat → Prop} {enough : Nat}
    (settled : ∀ turns, enough ≤ turns → p turns) (next : ∀ turns, p turns → run (turns + 1) = .ok answer) :
    Settles run answer := by
  refine ⟨enough + 1, fun turns more => ?_⟩
  obtain ⟨n, rfl⟩ := Nat.exists_eq_add_of_le' (Nat.le_trans (Nat.le_add_left 1 enough) more)
  exact next n (settled n (Nat.le_of_succ_le_succ more))

theorem settlesAtOnce {α : Type} {run : Nat → Except Fault α} {answer : α}
    (next : ∀ turns, run (turns + 1) = .ok answer) : Settles run answer :=
  @settlesAfter _ _ _ (fun _ => True) 0 (fun _ _ => trivial) fun turns _ => next turns

theorem settlesAll {α β : Type} {run : Nat → α → Except Fault β} {answer : α → β} {l : List α}
    (each : ∀ a ∈ l, Settles (run · a) (answer a)) :
    ∃ enough, ∀ turns, enough ≤ turns → ∀ a ∈ l, run turns a = .ok (answer a) := by
  induction l with
  | nil => exact ⟨0, fun _ _ => nofun⟩
  | cons a rest ih =>
    obtain ⟨⟨n, here⟩, others⟩ := List.forall_mem_cons.mp each
    obtain ⟨m, there⟩ := ih others
    refine ⟨max n m, fun turns enough => ?_⟩
    obtain ⟨low, high⟩ := Nat.max_le.mp enough
    exact List.forall_mem_cons.mpr ⟨here turns low, there turns high⟩

theorem linearizeSettles (path : List ClassId) (c : ClassId) :
    Settles (g.runLinearize · path c) (g.linearizeWithin path c) := by
  induction path, c using linearizeWithin.induct g with
  | case1 path c cycle => exact settlesAtOnce fun turns => by simp [runLinearize, linearizeWithin, cycle]
  | case2 path c fresh ih =>
    obtain ⟨depth, bases⟩ := @settlesAll _ _ (fun turns b => g.runLinearize turns (c :: path) b)
      (g.linearizeWithin (c :: path)) (g.bases c) fun b base => ih ⟨b, base⟩
    have unattached : (g.bases c).attach.mapM (fun b => g.linearizeWithin (c :: path) b.val) =
        (g.bases c).mapM (g.linearizeWithin (c :: path)) := by
      rw [List.mapM_subtype (fun b _ => rfl), List.unattach_attach]
    rw [linearizeWithin, dif_neg fresh, unattached]
    cases above : (g.bases c).mapM (g.linearizeWithin (c :: path)) with
    | none =>
      refine settlesAfter bases fun n done => ?_
      simp only [runLinearize, if_neg fresh, allOk done, above, bind, Except.bind, Option.bind]
    | some sequences =>
      have both : ∀ n, max depth (totalLength (sequences ++ [g.bases c]) + 1) ≤ n → _ ∧ _ :=
        fun n enough => (Nat.max_le.mp enough).imp (bases n) (fun room => @mergeOk _ n room)
      refine settlesAfter both fun n settled => ?_
      obtain ⟨done, merged⟩ := settled
      simp only [runLinearize, if_neg fresh, allOk done, above, bind, Except.bind, Option.bind, merged]
      cases merge (sequences ++ [g.bases c]) <;> rfl

theorem depthFirstSettles (seen stack : List ClassId) :
    Settles (g.runDepthFirst · seen stack) (g.depthFirst seen stack) := by
  induction seen, stack using depthFirst.induct g with
  | case1 seen => exact settlesAtOnce fun turns => by simp [runDepthFirst, depthFirst]
  | case2 seen c stack known ih =>
    obtain ⟨_, later⟩ := ih
    refine settlesAfter later fun n done => ?_
    simp only [runDepthFirst, depthFirst, if_pos known, done]
  | case3 seen c stack fresh ih =>
    obtain ⟨_, later⟩ := ih
    refine settlesAfter later fun n done => ?_
    simp only [runDepthFirst, depthFirst, if_neg fresh, done, bind, Except.bind]

theorem searchSettles (seen stack : List ClassId) :
    Settles (g.runSearch a · seen stack) (g.search a seen stack) := by
  induction seen, stack using search.induct g a with
  | case1 seen => exact settlesAtOnce fun turns => by simp [runSearch, search]
  | case2 seen c stack known ih =>
    obtain ⟨_, later⟩ := ih
    refine settlesAfter later fun n done => ?_
    simp only [runSearch, search, if_pos known, done]
  | case3 seen c stack fresh base => exact settlesAtOnce fun turns => by simp [runSearch, search, fresh, base]
  | case4 seen c stack fresh other ih =>
    obtain ⟨_, later⟩ := ih
    refine settlesAfter later fun n done => ?_
    simp only [runSearch, search, if_neg fresh, if_neg other, done]

theorem orderSettles (g : InheritanceGraph) (c : ClassId) : Settles (g.runOrder · c) (g.resolutionOrder c) := by
  obtain ⟨n, linear⟩ := @linearizeSettles g [] c
  obtain ⟨m, walk⟩ := @depthFirstSettles g [] [c]
  refine ⟨max n m, fun turns enough => ?_⟩
  obtain ⟨low, high⟩ := Nat.max_le.mp enough
  simp only [runOrder, linear turns low, bind, Except.bind, resolutionOrder, linearize]
  cases g.linearizeWithin [] c with
  | none => exact walk turns high
  | some order => rfl

theorem derivedSettles (g : InheritanceGraph) (c a : ClassId) :
    Settles (g.runDerived · c a) (g.isDerivedFrom c a) := by
  obtain ⟨n, walk⟩ := @searchSettles g a [] [c]
  refine ⟨n, fun turns enough => ?_⟩
  by_cases same : c = a <;> simp [runDerived, isDerivedFrom, same, walk turns enough]

/-- On any graph, cyclic or without a consistent order, derivation, paths of recorded bases and membership
in the resolution order are one thing. The order begins with the class and holds none twice. Both are
computed in finitely many turns, in which no empty sequence is read. -/
theorem ancestryAgrees (g : InheritanceGraph) (c a : ClassId) :
    (g.isDerivedFrom c a = true ↔ g.Path c a) ∧
      (g.isDerivedFrom c a = true ↔ a ∈ g.resolutionOrder c) ∧
      (g.resolutionOrder c).head? = some c ∧ (g.resolutionOrder c).Nodup ∧
      Settles (g.runDerived · c a) (g.isDerivedFrom c a) ∧ Settles (g.runOrder · c) (g.resolutionOrder c) :=
  ⟨derivedIff, derivedIff.trans memResolutionOrder.symm, g.resolutionOrderHead c, g.resolutionOrderDistinct c,
    g.derivedSettles c a, g.orderSettles c⟩

end GradualTypes.InheritanceGraph
