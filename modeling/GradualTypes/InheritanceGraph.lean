import GradualTypes.ClassTable

/-! The graph of recorded bases, over class ids that need not be declared. Cycles and self-bases may be
recorded; every walk ends because the classes that still have bases to offer run out. -/
namespace GradualTypes

structure InheritanceGraph where
  entries : List (ClassId × List ClassId)
  deriving DecidableEq, Repr

namespace InheritanceGraph

def empty : InheritanceGraph := ⟨[]⟩

def bases (g : InheritanceGraph) (c : ClassId) : List ClassId := (g.entries.lookup c).getD []

def addNew : List ClassId → List ClassId → List ClassId
  | known, [] => known
  | known, p :: rest => if p ∈ known then addNew known rest else addNew (known ++ [p]) rest

/- Records parents after the bases the child already has; one recorded before keeps its place. -/
def inherit (g : InheritanceGraph) (child : ClassId) (parents : List ClassId) : InheritanceGraph :=
  ⟨(child, addNew (g.bases child) parents) :: g.entries.filter (fun e => e.1 != child)⟩

/- What the classes outside `seen` can still put on a stack, each counted once more for itself. -/
def reserve (g : InheritanceGraph) (seen : List ClassId) : Nat :=
  (g.entries.filter (fun e => !seen.contains e.1)).foldr (fun e n => e.2.length + 1 + n) 0

theorem lookupMem {entries : List (ClassId × List ClassId)} {c : ClassId} {bs : List ClassId}
    (found : entries.lookup c = some bs) : (c, bs) ∈ entries := by
  induction entries with
  | nil => simp at found
  | cons e rest ih =>
    obtain ⟨d, ds⟩ := e
    by_cases h : c = d
    · subst h
      simp only [List.lookup_cons_self, Option.some.injEq] at found
      simp [found]
    · have : (c == d) = false := by simpa using h
      simp only [List.lookup_cons, this] at found
      exact List.mem_cons_of_mem _ (ih found)

theorem reserveMono (g : InheritanceGraph) (seen : List ClassId) (c : ClassId) :
    g.reserve (c :: seen) ≤ g.reserve seen := by
  unfold reserve
  induction g.entries with
  | nil => simp
  | cons e rest ih =>
    by_cases h : e.1 = c <;> by_cases k : e.1 ∈ seen <;> simp_all
    omega

theorem reserveSpent (g : InheritanceGraph) {seen : List ClassId} {c : ClassId} {bs : List ClassId}
    (found : (c, bs) ∈ g.entries) (fresh : c ∉ seen) :
    g.reserve (c :: seen) + bs.length + 1 ≤ g.reserve seen := by
  obtain ⟨entries⟩ := g
  induction entries with
  | nil => simp at found
  | cons e rest ih =>
    rcases List.mem_cons.mp found with rfl | later
    · have mono := reserveMono ⟨rest⟩ seen c
      simp only [reserve] at mono ⊢
      simp [fresh] at mono ⊢
      omega
    · have step := ih later
      simp only [reserve] at step ⊢
      by_cases h : e.1 = c <;> by_cases k : e.1 ∈ seen <;> simp_all <;> omega

/- A walk that visits a fresh class and puts its bases on the stack comes nearer to its end. -/
theorem reserveVisit (g : InheritanceGraph) {seen : List ClassId} {c : ClassId} (fresh : c ∉ seen) :
    g.reserve (c :: seen) + (g.bases c).length ≤ g.reserve seen := by
  unfold bases
  cases found : g.entries.lookup c with
  | none => simpa using reserveMono g seen c
  | some bs =>
    have := g.reserveSpent (lookupMem found) fresh
    simp only [Option.getD_some]
    omega

theorem reserveBase (g : InheritanceGraph) {seen : List ClassId} {b c : ClassId} (fresh : c ∉ seen)
    (base : b ∈ g.bases c) : g.reserve (c :: seen) < g.reserve seen := by
  unfold bases at base
  cases found : g.entries.lookup c with
  | none => simp [found] at base
  | some bs =>
    have := g.reserveSpent (lookupMem found) fresh
    omega

def search (g : InheritanceGraph) (ancestor : ClassId) (seen : List ClassId) : List ClassId → Bool
  | [] => false
  | c :: stack =>
    if c ∈ seen then g.search ancestor seen stack
    else if ancestor ∈ g.bases c then true
    else g.search ancestor (c :: seen) (g.bases c ++ stack)
termination_by stack => g.reserve seen + stack.length
decreasing_by
  · simp
  · have := g.reserveVisit (by assumption : c ∉ seen)
    simp only [List.length_append, List.length_cons]
    omega

def isDerivedFrom (g : InheritanceGraph) (c ancestor : ClassId) : Bool :=
  c == ancestor || g.search ancestor [] [c]

/- Recording `parent` as a base of `child` would close a cycle. -/
def wouldCycle (g : InheritanceGraph) (child parent : ClassId) : Bool := g.isDerivedFrom parent child

/- Depth first, leftmost base first, each class where it is met first. -/
def depthFirst (g : InheritanceGraph) (seen : List ClassId) : List ClassId → List ClassId
  | [] => []
  | c :: stack =>
    if c ∈ seen then g.depthFirst seen stack
    else c :: g.depthFirst (c :: seen) (g.bases c ++ stack)
termination_by stack => g.reserve seen + stack.length
decreasing_by
  · simp
  · have := g.reserveVisit (by assumption : c ∉ seen)
    simp only [List.length_append, List.length_cons]
    omega

def depthFirstOrder (g : InheritanceGraph) (c : ClassId) : List ClassId := g.depthFirst [] [c]

end InheritanceGraph
end GradualTypes
