import GradualTypes.Proofs.Installation

/-! Linking bases. The classes of a manifest record their bases one at a time, each on a graph that holds
the earlier ones, and the guard looks at that graph only. All of them are recorded exactly if every name
leads to a class and the bases taken together have no circle, in whichever order they are written. -/
namespace GradualTypes

/- A relation that never leads back to where it began. -/
def NoCircle (R : ClassId → ClassId → Prop) : Prop := ∀ c, ¬ Relation.TransGen R c c

theorem NoCircle.anti {R S : ClassId → ClassId → Prop} (open' : NoCircle S) (fewer : ∀ c b, R c b → S c b) :
    NoCircle R := fun c loop => open' c (Relation.TransGen.mono fewer _ _ loop)

/- Below lies a part that no step leads out of, and only steps of `R` begin outside it: a circle of both
relations is a circle of one of them. -/
theorem NoCircle.join {R S : ClassId → ClassId → Prop} {low : ClassId → Prop}
    (inside : ∀ c b, S c b → low c ∧ low b) (outside : ∀ c b, R c b → ¬ low c) (upper : NoCircle R)
    (lower : NoCircle S) : NoCircle (fun c b => S c b ∨ R c b) := by
  have kept : ∀ c a, Relation.TransGen (fun c b => S c b ∨ R c b) c a → low c →
      Relation.TransGen S c a ∧ low a := by
    intro c a way start
    induction way with
    | single step =>
      have old := step.resolve_right (fun new => outside _ _ new start)
      exact ⟨.single old, (inside _ _ old).2⟩
    | tail _ step ih =>
      have old := step.resolve_right (fun new => outside _ _ new ih.2)
      exact ⟨ih.1.tail old, (inside _ _ old).2⟩
  have high : ∀ c a, Relation.TransGen (fun c b => S c b ∨ R c b) c a → ¬ low a →
      Relation.TransGen R c a := by
    intro c a way goal
    induction way using Relation.TransGen.head_induction_on with
    | single step => exact .single (step.resolve_left fun old => goal (inside _ _ old).2)
    | head step rest ih =>
      have new := step.resolve_left fun old => goal (kept _ _ rest (inside _ _ old).2).2
      exact .head new ih
  intro c loop
  by_cases start : low c
  · exact lower c (kept c c loop start).1
  · exact upper c (high c c loop start)

namespace InheritanceGraph

theorem addNewAppend (known parents more : List ClassId) :
    addNew known (parents ++ more) = addNew (addNew known parents) more := by
  induction parents generalizing known with
  | nil => rfl
  | cons p rest ih =>
    simp only [List.cons_append, addNew]
    split <;> exact ih _

/- What is new is appended in its order, each class where it comes first. -/
theorem addNewEach (known parents : List ClassId) :
    addNew known parents = known ++ (parents.filter (fun p => p ∉ known)).eraseDups := by
  induction parents generalizing known with
  | nil => simp [addNew]
  | cons p rest ih =>
    by_cases old : p ∈ known
    · simp [addNew, old, ih]
    · simp [addNew, old, ih, List.eraseDups_cons, beq_eq_decide, Bool.and_comm]

theorem addNewEmpty (parents : List ClassId) : addNew [] parents = parents.eraseDups := by
  simp [addNewEach]

end InheritanceGraph

namespace Universe

/- One base to be recorded: for which class, and under which name it is looked up. -/
structure Link where
  child : ClassId
  qualified : String
  base : String

def linkAll (u : Universe) : List Link → Installed
  | [] => (u, none)
  | l :: rest => andThen (u.linkBase l.child l.qualified l.base) (fun u => u.linkAll rest)

/- The links of classes whose ids follow each other from `child` on. -/
def linksOf (child : ClassId) : List ClassStub → List Link
  | [] => []
  | s :: rest => s.bases.map (Link.mk child s.qualifiedName) ++ linksOf (child + 1) rest

theorem memLinksOf {l : Link} {child : ClassId} {classes : List ClassStub} :
    l ∈ linksOf child classes ↔ ∃ (i : Nat) (s : ClassStub), classes[i]? = some s ∧
      ∃ base ∈ s.bases, l = ⟨child + i, s.qualifiedName, base⟩ := by
  induction classes generalizing child with
  | nil => simp [linksOf]
  | cons s rest ih =>
    rw [linksOf, List.mem_append, List.mem_map, ih]
    constructor
    · rintro (⟨base, listed, rfl⟩ | ⟨i, s', at', base, listed, rfl⟩)
      · exact ⟨0, s, rfl, base, listed, rfl⟩
      · exact ⟨i + 1, s', at', base, listed, by rw [Nat.add_right_comm, Nat.add_assoc]⟩
    · rintro ⟨_ | i, s', at', base, listed, rfl⟩
      · cases at'
        exact .inl ⟨base, listed, rfl⟩
      · exact .inr ⟨i, s', at', base, listed, by rw [Nat.add_right_comm, Nat.add_assoc]⟩

/- The links of one class are its bases in their order. -/
theorem linksOfChild {child : Nat} {classes : List ClassStub} {i : Nat} {s : ClassStub}
    (at' : classes[i]? = some s) : (linksOf child classes).filter (fun l => l.child == child + i) =
      s.bases.map (Link.mk (child + i) s.qualifiedName) := by
  induction classes generalizing child i with
  | nil => simp at at'
  | cons s' rest ih =>
    rw [linksOf, List.filter_append]
    cases i with
    | zero =>
      cases at'
      have others : (linksOf (child + 1) rest).filter (fun l => l.child == child + 0) = [] := by
        rw [List.filter_eq_nil_iff]
        intro l member
        obtain ⟨j, -, -, base, -, rfl⟩ := memLinksOf.mp member
        simp
        omega
      rw [others, List.append_nil, List.filter_eq_self.mpr (by simp)]
      rfl
    | succ i =>
      have others : (s'.bases.map (Link.mk child s'.qualifiedName)).filter
          (fun l => l.child == child + (i + 1)) = [] := by
        simp
      have later := @ih (child + 1) i at'
      rw [others, List.nil_append]
      rwa [Nat.add_right_comm, Nat.add_assoc] at later

variable {u v : Universe} {links : List Link} {c b : ClassId}

theorem andThenNone {part : Installed} {next : Universe → Installed} :
    (andThen part next).2 = none ↔ part.2 = none ∧ (next part.1).2 = none := by
  obtain ⟨u, _ | e⟩ := part <;> simp [andThen]

theorem linkAllAppend (u : Universe) (links more : List Link) :
    u.linkAll (links ++ more) = andThen (u.linkAll links) (fun u => u.linkAll more) := by
  induction links generalizing u with
  | nil => rfl
  | cons l rest ih =>
    simp only [List.cons_append, linkAll]
    obtain ⟨v, _ | e⟩ := u.linkBase l.child l.qualified l.base
    · exact ih v
    · rfl

theorem linkBasesAll (u : Universe) (child : ClassId) (qualified : String) (bases : List String) :
    u.linkBases child qualified bases = u.linkAll (bases.map (Link.mk child qualified)) := by
  induction bases generalizing u with
  | nil => rfl
  | cons base rest ih => simp only [linkBases, List.map_cons, linkAll, ih]

theorem linkClassesAll (u : Universe) (child : ClassId) (classes : List ClassStub) :
    u.linkClasses child classes = u.linkAll (linksOf child classes) := by
  induction classes generalizing u child with
  | nil => rfl
  | cons s rest ih => simp only [linkClasses, linksOf, linkAllAppend, linkBasesAll, ih]

/- What both parts leave alone is left alone by the two together. -/
theorem andThenFrame {α : Type} {f : Universe → α} {part : Installed} {next : Universe → Installed}
    (first : f part.1 = f u) (later : ∀ v, f (next v).1 = f v) : f (andThen part next).1 = f u :=
  andThenEnds (f · = f u) first fun _ => (later _).trans first

/- Linking leaves alone all that is read without the graph. -/
theorem linkAllFrame {α : Type} (f : Universe → α) (blind : ∀ u g, f { u with graph := g } = f u)
    (u : Universe) (links : List Link) : f (u.linkAll links).1 = f u := by
  induction links generalizing u with
  | nil => rfl
  | cons l rest ih =>
    refine andThenFrame ?_ ih
    unfold linkBase
    split
    · rfl
    · split
      · rfl
      · exact blind u _

/- A base that one of the links asks for. -/
def Asks (u : Universe) (links : List Link) (c b : ClassId) : Prop :=
  ∃ l ∈ links, l.child = c ∧ u.class? l.base = some b

/-- Links are all recorded exactly if every base is found and no circle arises, whatever their order. -/
theorem linkAllIff (acyclic : u.graph.Acyclic) (links : List Link) :
    (u.linkAll links).2 = none ↔ (∀ l ∈ links, (u.class? l.base).isSome) ∧
      NoCircle (fun c b => u.graph.HasBase c b ∨ u.Asks links c b) := by
  induction links generalizing u with
  | nil =>
    simp only [linkAll, Asks, List.not_mem_nil, false_and, exists_false, or_false, true_iff]
    exact ⟨nofun, acyclic⟩
  | cons l rest ih =>
    rw [linkAll, andThenNone, linkBase]
    cases found : u.class? l.base with
    | none => simp [found]
    | some b =>
      -- What is asked for after the first link was recorded is what all links ask for.
      have moved : ∀ c d, ((u.graph.inherit l.child [b]).HasBase c d ∨
            ({ u with graph := u.graph.inherit l.child [b] } : Universe).Asks rest c d) ↔
          (u.graph.HasBase c d ∨ u.Asks (l :: rest) c d) := by
        intro c d
        have here : u.Asks (l :: rest) c d ↔ c = l.child ∧ d = b ∨ u.Asks rest c d := by
          simp [Asks, found, eq_comm]
        rw [InheritanceGraph.hasBaseInherit, here, or_assoc]
        rfl
      by_cases closes : u.graph.wouldCycle l.child b = true
      · simp only [closes, if_true, reduceCtorEq, false_and, false_iff, not_and]
        intro _ open'
        refine (InheritanceGraph.guardExact acyclic).mp closes (open'.anti fun c d base => ?_)
        exact (moved c d).mp (.inl base)
      · have safe : u.graph.wouldCycle l.child b = false := by simpa using closes
        have later := @ih { u with graph := u.graph.inherit l.child [b] }
          (InheritanceGraph.inheritAcyclic acyclic safe)
        simp only [safe, Bool.false_eq_true, if_false, true_and]
        rw [later, List.forall_mem_cons, found]
        simp only [moved, Option.isSome_some, true_and]
        rfl

/- Where all links are recorded, the bases of a class are joined by those it asks for, in their order. -/
theorem linkAllBases (done : (u.linkAll links).2 = none) (c : ClassId) :
    (u.linkAll links).1.graph.bases c = InheritanceGraph.addNew (u.graph.bases c)
      ((links.filter (fun l => l.child == c)).filterMap (fun l => u.class? l.base)) := by
  induction links generalizing u with
  | nil => rfl
  | cons l rest ih =>
    rw [linkAll, andThenNone] at done
    rw [linkAll, andThenDone done.1, ih done.2]
    have first := done.1
    unfold linkBase at first ⊢
    cases found : u.class? l.base with
    | none => simp [found] at first
    | some b =>
      by_cases closes : u.graph.wouldCycle l.child b = true
      · simp [found, closes] at first
      · simp only [closes, Bool.false_eq_true, if_false, InheritanceGraph.basesInherit]
        by_cases same : l.child = c
        · subst same
          simp only [if_true, List.filter_cons, beq_self_eq_true, List.filterMap_cons, found]
          rw [← InheritanceGraph.addNewAppend]
          rfl
        · have other : (l.child == c) = false := by simpa using same
          simp only [Ne.symm same, if_false, List.filter_cons, other, Bool.false_eq_true]
          rfl

end Universe
end GradualTypes
