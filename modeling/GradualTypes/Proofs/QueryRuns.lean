import Mathlib
import GradualTypes.Proofs.SlotLowering
import GradualTypes.Proofs.SlotVerdicts

/-! Runs of queries. Every question enlarges the table and changes nothing else, so that what it is answered can
be read off the table in which the references were bound. The questions before it have no part in that, and
the ones after it neither. -/
namespace GradualTypes

/- Both sides of a question, lowered by themselves. -/
def Universe.sides (u : Universe) (expected actual : TypeExpr) : Except (Side × LowerError) (Ty × Ty) :=
  match u.lower expected with
  | .error cause => .error (.expected, cause)
  | .ok e =>
    match u.lower actual with
    | .error cause => .error (.actual, cause)
    | .ok a => .ok (e, a)

namespace SharedUniverse

/- The classes and references of a universe, and a table with no less in it. -/
structure Enlarges (u later : SharedUniverse) : Prop where
  outline : later.outline = u.outline
  references : later.references = u.references
  fills : u.types.Fills later.types

theorem Enlarges.refl (u : SharedUniverse) : u.Enlarges u := ⟨rfl, rfl, .refl _⟩

theorem Enlarges.trans {u v w : SharedUniverse} (first : u.Enlarges v) (second : v.Enlarges w) : u.Enlarges w :=
  ⟨second.outline.trans first.outline, second.references.trans first.references, first.fills.trans second.fills⟩

theorem lowerEnlarges (u : SharedUniverse) (e : TypeExpr) : u.Enlarges (u.lower e).2 :=
  ⟨rfl, rfl, lowerFills u.outline e u.types⟩

theorem compareEnlarges (u : SharedUniverse) (expected actual : TypeExpr) :
    u.Enlarges (u.compare expected actual).2 := by
  have both := (u.lowerEnlarges expected).trans ((u.lower expected).2.lowerEnlarges actual)
  unfold compare
  dsimp only
  split
  · exact u.lowerEnlarges expected
  · split
    · exact both
    · exact ⟨rfl, rfl, both.fills.trans (u.outline.context.matchAdds u.references 2 _ _ _)⟩

theorem isMatchTable (u : SharedUniverse) (expected actual : TypeExpr) :
    (u.isMatch expected actual).2 = (u.compare expected actual).2 := by
  unfold isMatch
  dsimp only
  split <;> rfl

theorem answerTable (u : SharedUniverse) (index : Nat) (q : Query) :
    (u.answer index q).2 = (u.compare q.expected q.actual).2 := by
  unfold answer
  dsimp only
  split <;> rfl

theorem answerEnlarges (u : SharedUniverse) (index : Nat) (q : Query) : u.Enlarges (u.answer index q).2 := by
  rw [answerTable]
  exact u.compareEnlarges q.expected q.actual

theorem answerFromEnlarges (u : SharedUniverse) (index : Nat) (qs : List Query) :
    u.Enlarges (u.answerFrom index qs).2 := by
  induction qs generalizing u index with
  | nil => exact .refl u
  | cons q rest ih =>
    have first := u.answerEnlarges index q
    unfold answerFrom
    dsimp only
    split
    · exact first
    · exact first.trans (ih _ _)

section
variable {u : SharedUniverse} {expected actual : TypeExpr} {cause : LowerError} {l r : Slot}

theorem compareLeft (fails : (u.lower expected).1 = .error cause) :
    u.compare expected actual = (.error (.expected, cause), (u.lower expected).2) := by
  simp only [compare, fails]

theorem compareRight (left : (u.lower expected).1 = .ok l)
    (fails : ((u.lower expected).2.lower actual).1 = .error cause) :
    u.compare expected actual = (.error (.actual, cause), ((u.lower expected).2.lower actual).2) := by
  simp only [compare, left, fails]

theorem compareBoth (left : (u.lower expected).1 = .ok l)
    (right : ((u.lower expected).2.lower actual).1 = .ok r) :
    u.compare expected actual =
      let v := u.outline.context.matchSlots u.references l r ((u.lower expected).2.lower actual).2.types
      (.ok ⟨l, r, v.1⟩, { u with types := v.2 }) := by
  simp only [compare, left, right]

end

theorem sidesLeft {u : Universe} {expected actual : TypeExpr} {cause : LowerError}
    (fails : u.lower expected = .error cause) : u.sides expected actual = .error (.expected, cause) := by
  simp only [Universe.sides, fails]

theorem sidesRight {u : Universe} {expected actual : TypeExpr} {cause : LowerError} {e : Ty}
    (left : u.lower expected = .ok e) (fails : u.lower actual = .error cause) :
    u.sides expected actual = .error (.actual, cause) := by
  simp only [Universe.sides, left, fails]

theorem sidesBoth {u : Universe} {expected actual : TypeExpr} {e a : Ty} (left : u.lower expected = .ok e)
    (right : u.lower actual = .ok a) : u.sides expected actual = .ok (e, a) := by
  simp only [Universe.sides, left, right]

/- A comparison fails as the trees do. -/
theorem compareAlike (u : SharedUniverse) (expected actual : TypeExpr) :
    Agrees (fun _ _ => True) (u.compare expected actual).1 (u.outline.sides expected actual) := by
  have first : Alike (u.lower expected).1 (u.outline.lower expected) := lowerAlike u.outline expected u.types
  have second : Alike ((u.lower expected).2.lower actual).1 (u.outline.lower actual) := lowerAlike u.outline actual _
  cases left : (u.lower expected).1 with
  | error cause =>
    rw [left] at first
    rw [compareLeft left, sidesLeft first.errorLeft]
    exact .error _
  | ok l =>
    rw [left] at first
    obtain ⟨e, leftTree, -⟩ := first.okLeft
    cases right : ((u.lower expected).2.lower actual).1 with
    | error cause =>
      rw [right] at second
      rw [compareRight left right, sidesRight leftTree second.errorLeft]
      exact .error _
    | ok r =>
      rw [right] at second
      obtain ⟨a, rightTree, -⟩ := second.okLeft
      rw [compareBoth left right, sidesBoth leftTree rightTree]
      exact .ok trivial

/- The context in which the types of a universe are matched. -/
def judge (u : SharedUniverse) : Context := u.outline.context.reading u.references u.types

/- The references of a universe are bound to what stands in its table. -/
structure Standing (u : SharedUniverse) : Prop where
  unfolds : u.types.Unfolds
  stand : u.references.Stand u.types

/- A comparison in a later table comes to what trees say, or fails as they do. -/
structure Answers (u : SharedUniverse) (t : TypeTable)
    (made : Except (Side × LowerError) Comparison × SharedUniverse)
    (m : Except (Side × LowerError) (Ty × Ty)) : Prop where
  follows : t.Follows made.2.types
  agrees : Agrees (fun c p => c.matched = u.judge.isMatch p.1 p.2) made.1 m

theorem compareAnswers {u v : SharedUniverse} (plain : u.outline.classes.NoTupleNames) (standing : u.Standing)
    (enlarges : u.Enlarges v) (follows : u.types.Follows v.types) {expected actual : TypeExpr}
    (space : (v.compare expected actual).2.types.HasSpace) :
    u.Answers v.types (v.compare expected actual) (u.outline.sides expected actual) := by
  have adds := u.outline.context.matchAdds u.references 2
  have decides := Context.slotsMatch (x := u.outline.context) plain standing.unfolds standing.stand
  have spells := fun e {t : TypeTable} => lowerSpells u.outline e (t := t)
  obtain ⟨outline, references, t⟩ := v
  obtain ⟨same, same', -⟩ := enlarges
  dsimp only at same same' follows ⊢
  subst same same'
  cases left : (lower ⟨u.outline, u.references, t⟩ expected).1 with
  | error cause =>
    rw [compareLeft left] at space ⊢
    obtain ⟨later, first⟩ := spells expected follows.unfolds space
    have fails : (lowerInto u.outline expected t).1 = .error cause := left
    rw [fails] at first
    rw [sidesLeft first.errorLeft]
    exact ⟨later, .error _⟩
  | ok l =>
    have found : (lowerInto u.outline expected t).1 = .ok l := left
    cases right : ((lower ⟨u.outline, u.references, t⟩ expected).2.lower actual).1 with
    | error cause =>
      rw [compareRight left right] at space ⊢
      obtain ⟨later, first⟩ := spells expected follows.unfolds ((lowerFills u.outline actual _).space space)
      obtain ⟨later', second⟩ := spells actual later.unfolds space
      have fails : (lowerInto u.outline actual (lowerInto u.outline expected t).2).1 = .error cause := right
      rw [found] at first
      rw [fails] at second
      obtain ⟨e, leftTree, -⟩ := first.okLeft
      rw [sidesRight leftTree second.errorLeft]
      exact ⟨later.trans later', .error _⟩
    | ok r =>
      rw [compareBoth left right] at space ⊢
      have room : (lowerInto u.outline actual (lowerInto u.outline expected t).2).2.HasSpace :=
        (adds l r _).space space
      obtain ⟨later, first⟩ := spells expected follows.unfolds ((lowerFills u.outline actual _).space room)
      obtain ⟨later', second⟩ := spells actual later.unfolds room
      have found' : (lowerInto u.outline actual (lowerInto u.outline expected t).2).1 = .ok r := right
      rw [found] at first
      rw [found'] at second
      obtain ⟨e, leftTree, leftStands, leftSame⟩ := first.okLeft
      obtain ⟨a, rightTree, rightStands, rightSame⟩ := second.okLeft
      have decided := decides l r _ (follows.trans (later.trans later')) (later'.stands leftStands) rightStands trivial
        space
      rw [later'.tree leftStands, leftSame, rightSame] at decided
      rw [sidesBoth leftTree rightTree]
      exact ⟨(later.trans later').trans decided.follows, .ok decided.holds⟩

/-! Installing manifests. -/

theorem bindAliasFills (u : SharedUniverse) (name : String) (body : TypeExpr) :
    u.types.Fills (u.bindAlias name body).1.types := by
  unfold bindAlias
  dsimp only
  split
  · exact (u.lowerEnlarges body).fills
  · split <;> exact (u.lowerEnlarges body).fills

theorem bindAliasesFills (u : SharedUniverse) (aliases : List (String × TypeExpr)) :
    u.types.Fills (u.bindAliases aliases).1.types := by
  induction aliases generalizing u with
  | nil => exact .refl _
  | cons a rest ih =>
    have first := u.bindAliasFills a.1 a.2
    rw [bindAliases]
    split
    · rename_i v bound
      rw [bound] at first
      exact first.trans (ih v)
    · rename_i v e stopped
      rw [stopped] at first
      exact first

theorem standBind {refs : SlotReferences} {t later : TypeTable} (stand : refs.Stand t) (follows : t.Follows later)
    {s : Slot} (stands : later.Stands s) (r : RefId) : (refs.bind r s).Stand later := by
  intro q target bound
  rw [SlotReferences.binding?, SlotReferences.bind, lookupReplaced] at bound
  split at bound
  · cases bound
    exact stands
  · exact follows.stands (stand q target bound)

theorem standKept {refs : SlotReferences} {t later : TypeTable} (stand : refs.Stand t) (follows : t.Follows later) :
    refs.Stand later := fun r s bound => follows.stands (stand r s bound)

theorem bindAliasStanding {u : SharedUniverse} (standing : u.Standing) {name : String} {body : TypeExpr}
    (space : (u.bindAlias name body).1.types.HasSpace) : (u.bindAlias name body).1.Standing := by
  have lowered : (lowerInto u.outline body u.types).2.HasSpace := by
    unfold bindAlias at space
    dsimp only at space
    split at space
    · exact space
    · split at space <;> exact space
  obtain ⟨follows, agrees⟩ := lowerSpells u.outline body standing.unfolds lowered
  have kept : (u.lower body).2.Standing := ⟨follows.unfolds, standKept standing.stand follows⟩
  unfold bindAlias
  dsimp only
  split
  · exact kept
  · rename_i target found
    have made : (lowerInto u.outline body u.types).1 = .ok target := found
    rw [made] at agrees
    obtain ⟨tree, -, stands, -⟩ := agrees.okLeft
    split
    · exact kept
    · exact ⟨follows.unfolds, standBind standing.stand follows stands _⟩

theorem bindAliasesStanding {u : SharedUniverse} (standing : u.Standing) (aliases : List (String × TypeExpr))
    (space : (u.bindAliases aliases).1.types.HasSpace) : (u.bindAliases aliases).1.Standing := by
  induction aliases generalizing u with
  | nil => exact standing
  | cons a rest ih =>
    have first : (u.bindAlias a.1 a.2).1.types.HasSpace → (u.bindAlias a.1 a.2).1.Standing :=
      bindAliasStanding standing
    rw [bindAliases] at space ⊢
    split at space
    · rename_i v bound
      rw [bound] at first
      exact ih (first ((v.bindAliasesFills rest).space space)) space
    · rename_i v e stopped
      rw [stopped] at first
      exact first space

theorem installFills (u : SharedUniverse) (m : Manifest) : u.types.Fills (u.install m).1.types := by
  unfold install
  split
  · rename_i outline announced
    exact bindAliasesFills { u with outline := outline } m.aliases.entries
  · exact .refl _

theorem installStanding {u : SharedUniverse} (standing : u.Standing) (m : Manifest)
    (space : (u.install m).1.types.HasSpace) : (u.install m).1.Standing := by
  unfold install at space ⊢
  split at space
  · rename_i outline announced
    have renewed : Standing { u with outline := outline } := ⟨standing.unfolds, standing.stand⟩
    exact bindAliasesStanding renewed m.aliases.entries space
  · exact ⟨standing.unfolds, standing.stand⟩

/- A universe that was empty once and had manifests installed on it, each as far as it went. -/
inductive Reached (hash : Node → UInt64) : SharedUniverse → Prop
  | start : Reached hash (empty hash)
  | install {u : SharedUniverse} (before : Reached hash u) (m : Manifest) : Reached hash (u.install m).1

theorem builtinsReached (hash : Node → UInt64) : Reached hash (withBuiltins hash) := .install .start .builtins

theorem runReached {hash : Node → UInt64} {u : SharedUniverse} (reached : Reached hash u) (manifests : List Manifest) :
    Reached hash (u.run manifests) := by
  induction manifests generalizing u with
  | nil => exact reached
  | cons m rest ih => exact ih (.install reached m)

theorem reachedStanding {hash : Node → UInt64} {u : SharedUniverse} (reached : Reached hash u)
    (space : u.types.HasSpace) : u.Standing := by
  induction reached with
  | start => exact ⟨TypeTable.emptyUnfolds hash, by simp [SlotReferences.Stand, empty, SlotReferences.empty,
      SlotReferences.binding?]⟩
  | install before m ih => exact installStanding (ih ((installFills _ m).space space)) m space

/-! Asking. -/

/- What a question is answered, read off the table in which the references were bound. -/
def verdict (u : SharedUniverse) (expected actual : TypeExpr) : Except LowerError Bool :=
  match u.outline.sides expected actual with
  | .error fault => .error fault.2
  | .ok p => .ok (u.judge.isMatch p.1 p.2)

section
variable {u v : SharedUniverse}

theorem isMatchVerdict (plain : u.outline.classes.NoTupleNames) (standing : u.Standing) (enlarges : u.Enlarges v)
    (follows : u.types.Follows v.types) {expected actual : TypeExpr}
    (space : (v.isMatch expected actual).2.types.HasSpace) :
    (v.isMatch expected actual).1 = u.verdict expected actual := by
  rw [isMatchTable] at space
  have agrees := (compareAnswers plain standing enlarges follows space).agrees
  unfold verdict isMatch
  cases tree : u.outline.sides expected actual with
  | error fault =>
    rw [tree] at agrees
    simp only [agrees.errorRight]
  | ok p =>
    rw [tree] at agrees
    obtain ⟨c, made, same⟩ := agrees.okRight
    simp only [made, same]

/- Both sides of a query lower. -/
def Asks (u : SharedUniverse) (q : Query) : Prop := ∃ p, u.outline.sides q.expected q.actual = .ok p

theorem answerRefused {q : Query} {fault : Side × LowerError}
    (fails : v.outline.sides q.expected q.actual = .error fault) (index : Nat) :
    (v.answer index q).1 = .error ⟨index, fault.1, fault.2⟩ := by
  have agrees := v.compareAlike q.expected q.actual
  rw [fails] at agrees
  simp only [answer, agrees.errorRight]

theorem answerMade {q : Query} {c : Comparison} (made : (v.compare q.expected q.actual).1 = .ok c) (index : Nat) :
    (v.answer index q).1 = .ok ((v.compare q.expected q.actual).2.outcome c q.expect) := by
  simp only [answer, made]

theorem answerFromRefused {q : Query} {rest : List Query} {e : QueryError} {index : Nat}
    (refused : (v.answer index q).1 = .error e) :
    v.answerFrom index (q :: rest) = (.error e, (v.answer index q).2) := by
  simp only [answerFrom, refused]

theorem answerFromMade {q : Query} {rest : List Query} {o : Outcome} {index : Nat}
    (made : (v.answer index q).1 = .ok o) :
    v.answerFrom index (q :: rest) =
      (((v.answer index q).2.answerFrom (index + 1) rest).1.map (o :: ·),
        ((v.answer index q).2.answerFrom (index + 1) rest).2) := by
  simp only [answerFrom, made]

/- A run answers all queries, or stops at the first that cannot be asked. -/
theorem runEnds (v : SharedUniverse) (index : Nat) (qs : List Query) :
    (∃ os, (v.answerFrom index qs).1 = .ok os ∧ List.Forall₂ (fun q o => o.expect = q.expect) qs os ∧
      ∀ q ∈ qs, v.Asks q) ∨
    ∃ k q fault, qs[k]? = some q ∧ v.outline.sides q.expected q.actual = .error fault ∧
      (∀ j q', j < k → qs[j]? = some q' → v.Asks q') ∧
      (v.answerFrom index qs).1 = .error ⟨index + k, fault.1, fault.2⟩ := by
  induction qs generalizing v index with
  | nil => exact .inl ⟨[], rfl, .nil, nofun⟩
  | cons q rest ih =>
    cases tree : v.outline.sides q.expected q.actual with
    | error fault =>
      refine .inr ⟨0, q, fault, rfl, tree, fun j q' low _ => absurd low (Nat.not_lt_zero j), ?_⟩
      rw [answerFromRefused (answerRefused tree index), Nat.add_zero]
    | ok p =>
      have agrees := v.compareAlike q.expected q.actual
      rw [tree] at agrees
      obtain ⟨c, made, -⟩ := agrees.okRight
      have outline : (v.answer index q).2.outline = v.outline := (v.answerEnlarges index q).outline
      have asks : ∀ q', (v.answer index q).2.Asks q' → v.Asks q' := by
        intro q' asks
        rwa [Asks, outline] at asks
      rw [answerFromMade (answerMade made index)]
      rcases ih (v.answer index q).2 (index + 1) with ⟨os, ran, expects, each⟩ | ⟨k, q', fault, at', fails, before, ran⟩
      · refine .inl ⟨_, by rw [ran]; rfl, .cons rfl expects, ?_⟩
        exact List.forall_mem_cons.mpr ⟨⟨p, tree⟩, fun q' member => asks q' (each q' member)⟩
      · rw [outline] at fails
        refine .inr ⟨k + 1, q', fault, at', fails, fun j q'' low there => ?_, ?_⟩
        · cases j with
          | zero =>
            obtain rfl : q = q'' := Option.some.inj there
            exact ⟨p, tree⟩
          | succ j => exact asks q'' (before j q'' (Nat.lt_of_succ_lt_succ low) there)
        · rw [ran, Nat.add_right_comm index 1 k]
          rfl

/- In tables with space a run answers each query as the first table says. -/
theorem runAnswers (plain : u.outline.classes.NoTupleNames) (standing : u.Standing) (enlarges : u.Enlarges v)
    (follows : u.types.Follows v.types) (index : Nat) (qs : List Query)
    (space : (v.answerFrom index qs).2.types.HasSpace) :
    u.types.Follows (v.answerFrom index qs).2.types ∧ ∀ os, (v.answerFrom index qs).1 = .ok os →
      List.Forall₂ (fun q o => u.verdict q.expected q.actual = .ok o.matched) qs os := by
  induction qs generalizing v index with
  | nil =>
    refine ⟨follows, fun os ran => ?_⟩
    cases ran
    exact .nil
  | cons q rest ih =>
    cases tree : v.outline.sides q.expected q.actual with
    | error fault =>
      rw [answerFromRefused (answerRefused tree index)] at space ⊢
      dsimp only at space ⊢
      rw [answerTable] at space ⊢
      exact ⟨follows.trans (compareAnswers plain standing enlarges follows space).follows, nofun⟩
    | ok p =>
      have alike := v.compareAlike q.expected q.actual
      rw [tree] at alike
      obtain ⟨c, made, -⟩ := alike.okRight
      rw [answerFromMade (answerMade made index)] at space ⊢
      have larger := enlarges.trans (v.answerEnlarges index q)
      have room := (answerFromEnlarges _ (index + 1) rest).fills.space space
      rw [answerTable] at room
      obtain ⟨later, agrees⟩ := compareAnswers plain standing enlarges follows room
      rw [← answerTable v index q] at later
      obtain ⟨last, each⟩ := ih larger (follows.trans later) (index + 1) space
      refine ⟨last, fun os ran => ?_⟩
      cases others : ((v.answer index q).2.answerFrom (index + 1) rest).1 with
      | error e =>
        rw [others] at ran
        cases ran
      | ok tail =>
        rw [others] at ran
        cases ran
        refine .cons ?_ (each tail others)
        rw [made, ← enlarges.outline, tree] at agrees
        obtain ⟨_, same, matched⟩ := agrees.okLeft
        cases same
        rw [verdict, ← enlarges.outline, tree]
        exact congrArg Except.ok matched.symm

end

def Lowers (u : SharedUniverse) (e : TypeExpr) : Prop := ∃ s, (u.lower e).1 = .ok s

/- A query cannot be asked, on account of one side. The actual side is to blame only if the expected one
lowers. -/
def Refuses (u : SharedUniverse) (q : Query) : Side → LowerError → Prop
  | .expected, cause => (u.lower q.expected).1 = .error cause
  | .actual, cause => u.Lowers q.expected ∧ (u.lower q.actual).1 = .error cause

/- What a run of queries on a universe has come to, whatever there was to ask. -/
structure Independent (u : SharedUniverse) (qs : List Query)
    (ran : Except QueryError (List Outcome) × SharedUniverse) : Prop where
  succeeds : (∃ os, ran.1 = .ok os) ↔ ∀ q ∈ qs, u.Lowers q.expected ∧ u.Lowers q.actual
  expects : ∀ os, ran.1 = .ok os → List.Forall₂ (fun q o => o.expect = q.expect) qs os
  alone : ∀ os, ran.1 = .ok os → ran.2.types.HasSpace →
    List.Forall₂ (fun q o => (u.isMatch q.expected q.actual).2.types.HasSpace →
      (u.isMatch q.expected q.actual).1 = .ok o.matched) qs os
  refused : ∀ e, ran.1 = .error e → ∃ q, qs[e.index]? = some q ∧ u.Refuses q e.side e.cause ∧
    ∀ j q', j < e.index → qs[j]? = some q' → u.Lowers q'.expected ∧ u.Lowers q'.actual
  unchanged : ran.2.types.HasSpace → ∀ expected actual, (u.isMatch expected actual).2.types.HasSpace →
    (ran.2.isMatch expected actual).2.types.HasSpace →
      (ran.2.isMatch expected actual).1 = (u.isMatch expected actual).1

section
variable {u : SharedUniverse} {q : Query}

theorem asksIff : u.Asks q ↔ u.Lowers q.expected ∧ u.Lowers q.actual := by
  have left : Alike (u.lower q.expected).1 (u.outline.lower q.expected) := lowerAlike u.outline q.expected u.types
  have right : Alike (u.lower q.actual).1 (u.outline.lower q.actual) := lowerAlike u.outline q.actual u.types
  constructor
  · rintro ⟨p, asked⟩
    cases leftTree : u.outline.lower q.expected with
    | error cause => cases (sidesLeft leftTree).symm.trans asked
    | ok e =>
      cases rightTree : u.outline.lower q.actual with
      | error cause => cases (sidesRight leftTree rightTree).symm.trans asked
      | ok a =>
        rw [leftTree] at left
        rw [rightTree] at right
        obtain ⟨s, made, -⟩ := left.okRight
        obtain ⟨s', made', -⟩ := right.okRight
        exact ⟨⟨s, made⟩, ⟨s', made'⟩⟩
  · rintro ⟨⟨s, made⟩, s', made'⟩
    rw [made] at left
    rw [made'] at right
    obtain ⟨e, leftTree, -⟩ := left.okLeft
    obtain ⟨a, rightTree, -⟩ := right.okLeft
    exact ⟨_, sidesBoth leftTree rightTree⟩

theorem refusesOf {fault : Side × LowerError} (fails : u.outline.sides q.expected q.actual = .error fault) :
    u.Refuses q fault.1 fault.2 := by
  have left : Alike (u.lower q.expected).1 (u.outline.lower q.expected) := lowerAlike u.outline q.expected u.types
  have right : Alike (u.lower q.actual).1 (u.outline.lower q.actual) := lowerAlike u.outline q.actual u.types
  cases leftTree : u.outline.lower q.expected with
  | error cause =>
    cases (sidesLeft leftTree).symm.trans fails
    rw [leftTree] at left
    exact left.errorRight
  | ok e =>
    rw [leftTree] at left
    obtain ⟨s, made, -⟩ := left.okRight
    cases rightTree : u.outline.lower q.actual with
    | error cause =>
      cases (sidesRight leftTree rightTree).symm.trans fails
      rw [rightTree] at right
      exact ⟨⟨s, made⟩, right.errorRight⟩
    | ok a => cases (sidesBoth leftTree rightTree).symm.trans fails

end

/-- Queries are answered independently. A run of them succeeds exactly if both sides of each lower; it then has
an outcome for each in turn, with what the query expects and, unless a shard of the table fills up, the answer
that it gets when it is asked alone before the run. Otherwise the error names the first query that cannot be
asked, and its expected side if that fails. After the run every question is answered as before. -/
theorem queriesIndependent {hash : Node → UInt64} {u : SharedUniverse} (reached : Reached hash u)
    (plain : u.outline.classes.NoTupleNames) (qs : List Query) : u.Independent qs (u.answerAll qs) := by
  have ends := u.runEnds 0 qs
  have enlarges : u.Enlarges (u.answerAll qs).2 := u.answerFromEnlarges 0 qs
  have standing : (u.answerAll qs).2.types.HasSpace → u.Standing := fun space =>
    reachedStanding reached (enlarges.fills.space space)
  have answers : (u.answerAll qs).2.types.HasSpace → _ := fun space =>
    runAnswers plain (standing space) (.refl u) (standing space).unfolds.follows 0 qs space
  have alone : ∀ expected actual, u.Standing → (u.isMatch expected actual).2.types.HasSpace →
      (u.isMatch expected actual).1 = u.verdict expected actual := fun expected actual standing space =>
    isMatchVerdict plain standing (.refl u) standing.unfolds.follows space
  refine ⟨⟨?_, ?_⟩, fun os ran => ?_, fun os ran space => ?_, fun e ran => ?_,
    fun space expected actual before after => ?_⟩
  · rintro ⟨os, ran⟩ q member
    rcases ends with ⟨-, -, -, each⟩ | ⟨k, q, fault, -, -, -, stopped⟩
    · exact asksIff.mp (each q member)
    · cases ran.symm.trans stopped
  · intro each
    rcases ends with ⟨os, ran, -, -⟩ | ⟨k, q, fault, at', fails, -, -⟩
    · exact ⟨os, ran⟩
    · obtain ⟨p, asked⟩ := asksIff.mpr (each q (List.mem_of_getElem? at'))
      cases fails.symm.trans asked
  · rcases ends with ⟨os', ran', expects, -⟩ | ⟨k, q, fault, -, -, -, stopped⟩
    · cases ran.symm.trans ran'
      exact expects
    · cases ran.symm.trans stopped
  · exact ((answers space).2 os ran).imp fun q o same room =>
      (alone q.expected q.actual (standing space) room).trans same
  · rcases ends with ⟨os, ran', -, -⟩ | ⟨k, q, fault, at', fails, before, stopped⟩
    · cases ran.symm.trans ran'
    · cases ran.symm.trans stopped
      rw [Nat.zero_add]
      exact ⟨q, at', refusesOf fails, fun j q' low there => asksIff.mp (before j q' low there)⟩
  · rw [alone expected actual (standing space) before]
    exact isMatchVerdict plain (standing space) enlarges (answers space).1 after

def petShop : Manifest :=
  ⟨[⟨"Cat", none, [], []⟩, ⟨"Dog", none, [], []⟩], [],
    AliasMap.empty.put "Pet" (.union [.named "Cat", .named "Dog"])⟩

def pets : SharedUniverse := ((empty fun _ => 0).install petShop).1

/- The last query makes a union of its own before its sides are matched. -/
def petQueries : List Query :=
  [⟨.aliased "Pet", .named "Dog", some true⟩, ⟨.named "Cat", .aliased "Pet", some true⟩,
    ⟨.union [.aliased "Pet", .unknown], .tuple [.named "Dog"], none⟩]

theorem petsAnswered :
    Reached (fun _ => 0) pets ∧ pets.outline.classes.NoTupleNames ∧
      (pets.answerAll petQueries).1.map (List.map Outcome.matched) = .ok [true, false, true] ∧
      (pets.answerAll petQueries).2.types.HasSpace ∧ pets.Independent petQueries (pets.answerAll petQueries) := by
  have reached : Reached (fun _ => 0) pets := .install .start petShop
  have plain : pets.outline.classes.NoTupleNames := by decide
  exact ⟨reached, plain, by cbv, of_decide_eq_true (by cbv), queriesIndependent reached plain petQueries⟩

end SharedUniverse
end GradualTypes
