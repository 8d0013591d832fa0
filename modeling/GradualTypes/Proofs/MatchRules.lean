import GradualTypes.Matching
import GradualTypes.Proofs.Unfolding
import Mathlib.Data.List.Forall2
import Mathlib.Tactic.SplitIfs

/-! The rules of a match as equivalences. Where answers to references hold no references, a match is a
fixed point of its own rules, and each rule can be read by itself: a reference is what it resolves to, a
union as the actual type is a conjunction, as the expected type a disjunction, and types of classes are
compared by class, element and position. -/
namespace GradualTypes

namespace Verdict

variable {α : Type} {f g : α → Verdict} {l : List α}

theorem allHolds : (all f l).holds = true ↔ ∀ a ∈ l, (f a).holds = true := by
  induction l with
  | nil => simp [all, yes]
  | cons a rest ih =>
    by_cases head : (f a).holds
    · simp [all, head, ih]
    · simp [all, head]

theorem anyHolds : (any f l).holds = true ↔ ∃ a ∈ l, (f a).holds = true := by
  induction l with
  | nil => simp [any, no]
  | cons a rest ih =>
    by_cases head : (f a).holds
    · simp [any, head]
    · simp [any, head, ih]

theorem allCongr (same : ∀ a ∈ l, f a = g a) : all f l = all g l := by
  induction l with
  | nil => rfl
  | cons a rest ih =>
    obtain ⟨head, tail⟩ := List.forall_mem_cons.mp same
    simp only [all, head, ih tail]

theorem anyCongr (same : ∀ a ∈ l, f a = g a) : any f l = any g l := by
  induction l with
  | nil => rfl
  | cons a rest ih =>
    obtain ⟨head, tail⟩ := List.forall_mem_cons.mp same
    simp only [any, head, ih tail]

end Verdict

/- No answer holds a reference, so that a path of a match passes at most one on each side. -/
structure Resolver.Settled (s : Resolver) : Prop where
  ground : ∀ r, (s.answer r).isGround = true
  reach : s.reach = 2

theorem Resolver.silentSettled : Resolver.silent.Settled := ⟨fun _ => rfl, rfl⟩

theorem Resolver.ofTableSettled (t : ReferenceTable) : (Resolver.ofTable t).Settled :=
  ⟨t.resolveGround, rfl⟩

theorem Resolver.settledOf {s : Resolver} (known : s = .silent ∨ ∃ t, s = .ofTable t) : s.Settled := by
  rcases known with rfl | ⟨t, rfl⟩
  · exact silentSettled
  · exact ofTableSettled t

namespace Context

/- Two ways to go on after a reference give one verdict if they agree wherever one can be met: `p` and `q`
say that there is none on the expected and on the actual side. -/
theorem compareCongr (x : Context) {f g : Ty → Ty → Verdict} {p q : Prop}
    (left : ¬ p → ∀ r a, (q → a.isGround = true) → f (x.resolver.answer r) a = g (x.resolver.answer r) a)
    (right : ¬ q → ∀ e r, (p → e.isGround = true) → f e (x.resolver.answer r) = g e (x.resolver.answer r))
    (e a : Ty) (leftGround : p → e.isGround = true) (rightGround : q → a.isGround = true) :
    x.compare f e a = x.compare g e a := by
  induction e, a using Context.compare.induct x with
  | case5 r a known present =>
    have open' : ¬ p := fun h => by simpa [Ty.isGround] using leftGround h
    rw [compare, compare, left open' r a rightGround] <;> assumption
  | case6 e r known present proper =>
    have open' : ¬ q := fun h => by simpa [Ty.isGround] using rightGround h
    rw [compare, compare, right open' e r leftGround] <;> assumption
  | case8 e ms known present proper plain ih =>
    rw [compare, compare, if_neg plain, if_neg plain]
    any_goals assumption
    apply Verdict.allCongr
    intro m _
    exact ih m leftGround (fun h => Ty.allGroundIff.mp (rightGround h) m m.property)
  | case9 ms a known present proper split ih =>
    rw [compare, compare]
    any_goals assumption
    apply Verdict.anyCongr
    intro m _
    exact ih m (fun h => Ty.allGroundIff.mp (leftGround h) m m.property) rightGround
  | case11 c e d a universal compatible ih =>
    simp only [compare]
    rw [ih leftGround rightGround]
  | case14 c es d as universal arity ih =>
    simp only [compare, universal, arity, if_true]
    congr 1
    apply Verdict.allCongr
    intro p _
    have parts := List.of_mem_zip p.property
    exact ih p (fun h => Ty.allGroundIff.mp (leftGround h) _ parts.1)
      (fun h => Ty.allGroundIff.mp (rightGround h) _ parts.2)
  | _ => simp [compare, *]

variable {x : Context}

/- One reference on each side is all that a path can meet, so that a verdict may be asked for again after
every reference. -/
theorem verdictStep (settled : x.resolver.Settled) (e a : Ty) :
    x.verdict e a = x.compare x.verdict e a := by
  have ground := settled.ground
  have both : ∀ e a, e.isGround = true → a.isGround = true →
      x.compareWithin 0 e a = x.compareWithin 1 e a := fun e a left right =>
    x.compareCongr (p := True) (q := True) (by simp) (by simp) e a (fun _ => left) (fun _ => right)
  have leftOnly : ∀ e a, e.isGround = true → x.compareWithin 1 e a = x.compareWithin 2 e a :=
    fun e a left =>
      x.compareCongr (p := True) (q := False) (by simp)
        (fun _ e r h => both e _ (h trivial) (ground r)) e a (fun _ => left) (by simp)
  have rightOnly : ∀ e a, a.isGround = true → x.compareWithin 1 e a = x.compareWithin 2 e a :=
    fun e a right =>
      x.compareCongr (p := False) (q := True)
        (fun _ r a h => both _ a (ground r) (h trivial)) (by simp) e a (by simp) (fun _ => right)
  have step : x.compareWithin 2 e a = x.compareWithin 3 e a :=
    x.compareCongr (p := False) (q := False) (fun _ r a _ => leftOnly _ a (ground r))
      (fun _ e r _ => rightOnly e _ (ground r)) e a (by simp) (by simp)
  have start : x.verdict = x.compareWithin 2 := by
    funext e a
    rw [verdict, settled.reach]
  rw [start, step]
  rfl

theorem matchStep (settled : x.resolver.Settled) (e a : Ty) :
    x.isMatch e a = (x.compare x.verdict e a).holds := by
  rw [isMatch, verdictStep settled]

theorem matchUnknownLeft (settled : x.resolver.Settled) (a : Ty) : x.isMatch .unknown a = true := by
  simp [matchStep settled, compare, Verdict.yes]

theorem matchUnknownRight (settled : x.resolver.Settled) (e : Ty) : x.isMatch e .unknown = true := by
  cases e <;> simp [matchStep settled, compare, Verdict.yes]

theorem matchMissingLeft (settled : x.resolver.Settled) (a : Ty) : x.isMatch .missing a = true := by
  cases a <;> simp [matchStep settled, compare, Verdict.yes]

theorem matchMissingRight (settled : x.resolver.Settled) (e : Ty) : x.isMatch e .missing = true := by
  cases e <;> simp [matchStep settled, compare, Verdict.yes]

theorem matchReferenceLeft (settled : x.resolver.Settled) (r : RefId) (a : Ty) :
    x.isMatch (.reference r) a = x.isMatch (x.resolver.answer r) a := by
  cases a with
  | unknown => rw [matchUnknownRight settled, matchUnknownRight settled]
  | missing => rw [matchMissingRight settled, matchMissingRight settled]
  | _ =>
    rw [matchStep settled, compare]
    · rfl
    · simp
    · simp

theorem answerNotReference (settled : x.resolver.Settled) (r q : RefId) :
    x.resolver.answer r ≠ .reference q := by
  intro same
  have ground := settled.ground r
  simp [same, Ty.isGround] at ground

theorem matchReferenceRight (settled : x.resolver.Settled) (e : Ty) (r : RefId) :
    x.isMatch e (.reference r) = x.isMatch e (x.resolver.answer r) := by
  have proper : ∀ e, (∀ q, e ≠ .reference q) →
      x.isMatch e (.reference r) = x.isMatch e (x.resolver.answer r) := by
    intro e plain
    cases e with
    | unknown => rw [matchUnknownLeft settled, matchUnknownLeft settled]
    | missing => rw [matchMissingLeft settled, matchMissingLeft settled]
    | reference q => exact absurd rfl (plain q)
    | _ =>
      rw [matchStep settled, compare]
      · rfl
      all_goals simp
  cases e with
  | reference q =>
    rw [matchReferenceLeft settled, matchReferenceLeft settled]
    exact proper _ (answerNotReference settled q)
  | _ => exact proper _ (by simp)

theorem matchUnionRight (settled : x.resolver.Settled) (e : Ty) (ms : List Ty) :
    x.isMatch e (.union ms) = true ↔ .unknown ∈ ms ∨ ∀ m ∈ ms, x.isMatch e m = true := by
  have proper : ∀ e, (∀ q, e ≠ .reference q) →
      (x.isMatch e (.union ms) = true ↔ .unknown ∈ ms ∨ ∀ m ∈ ms, x.isMatch e m = true) := by
    intro e plain
    by_cases known : e = .unknown
    · simp [known, matchUnknownLeft settled]
    by_cases present : e = .missing
    · simp [present, matchMissingLeft settled]
    rw [matchStep settled, compare]
    · by_cases hole : .unknown ∈ ms
      · simp [hole, Verdict.noting, Verdict.yes]
      · simp only [hole, if_false, false_or, Verdict.allHolds, List.mem_attach, forall_true_left,
          Subtype.forall, matchStep settled]
    · exact known
    · exact present
    · exact plain
  cases e with
  | reference r =>
    simp only [matchReferenceLeft settled]
    exact proper _ (answerNotReference settled r)
  | _ => exact proper _ (by simp)

theorem matchUnionLeft (settled : x.resolver.Settled) (ms : List Ty) {a : Ty}
    (classLike : a.isClassLike = true) :
    x.isMatch (.union ms) a = true ↔ ∃ m ∈ ms, x.isMatch m a = true := by
  rw [matchStep settled, compare]
  · simp only [Verdict.anyHolds, List.mem_attach, true_and, Subtype.exists, matchStep settled,
      exists_prop]
  all_goals
    intros
    simp_all [Ty.isClassLike]

theorem compareCollections (x : Context) (resume : Ty → Ty → Verdict) (c d : Option ClassId) (e a : Ty) :
    (x.compare resume (.collection c e) (.collection d a)).holds = true ↔
      x.isUniversal c = true ∨ x.classesCompatible c d = true ∧ (x.compare resume e a).holds = true := by
  rw [compare]
  by_cases universal : x.isUniversal c
  · simp [universal, Verdict.yes]
  · by_cases compatible : x.classesCompatible c d
    · simp [universal, compatible]
    · simp [universal, compatible, Verdict.no]

theorem matchCollections (settled : x.resolver.Settled) (c d : Option ClassId) (e a : Ty) :
    x.isMatch (.collection c e) (.collection d a) = true ↔
      x.isUniversal c = true ∨ x.classesCompatible c d = true ∧ x.isMatch e a = true := by
  rw [matchStep settled, matchStep settled]
  exact x.compareCollections _ c d e a

theorem matchTuples (settled : x.resolver.Settled) (c d : Option ClassId) (es as : List Ty) :
    x.isMatch (.tuple c es) (.tuple d as) = true ↔
      x.isUniversal c = true ∨ List.Forall₂ (fun e a => x.isMatch e a = true) es as := by
  rw [matchStep settled, compare, List.forall₂_iff_zip]
  by_cases universal : x.isUniversal c
  · simp [universal, Verdict.yes]
  · by_cases arity : es.length = as.length
    · simp [universal, arity, Verdict.allHolds, matchStep settled]
    · simp [universal, arity]

theorem compatibleSelf (x : Context) (c : Option ClassId) : x.classesCompatible c c = true := by
  cases c with
  | none => rfl
  | some c =>
    cases found : x.classes.decl? c with
    | none => simp [classesCompatible, found]
    | some d => simp [classesCompatible, found, InheritanceGraph.isDerivedFrom]

/- Whether two types are compared by their parts. -/
def paired : Ty → Ty → Bool
  | .collection _ _, .collection _ _ => true
  | .tuple _ _, .tuple _ _ => true
  | _, _ => false

theorem pairedIff {e a : Ty} : paired e a = true ↔
    (∃ c s d t, e = .collection c s ∧ a = .collection d t) ∨
      ∃ c es d as, e = .tuple c es ∧ a = .tuple d as := by
  cases e <;> cases a <;> simp [paired]

/- Types that are not compared by their parts ask for no reference. -/
theorem compareApart (x : Context) (resume : Ty → Ty → Verdict) {e a : Ty} (left : e.isClassLike = true)
    (right : a.isClassLike = true) (apart : paired e a = false) :
    (x.compare resume e a).holds = true ↔ x.isUniversal e.class? = true ∨
      x.classesCompatible e.class? a.class? = true ∨ (x.namesMatch e a).holds = true := by
  rw [compare]
  · by_cases universal : x.isUniversal e.class?
    · simp [universal, Verdict.yes]
    · by_cases compatible : x.classesCompatible e.class? a.class?
      · simp [universal, compatible, Verdict.yes]
      · have different : e ≠ a := by
          rintro rfl
          exact compatible (x.compatibleSelf _)
        simp [universal, compatible, different]
  all_goals
    intros
    simp_all [Ty.isClassLike, paired]

theorem matchApart (settled : x.resolver.Settled) {e a : Ty} (left : e.isClassLike = true)
    (right : a.isClassLike = true) (apart : paired e a = false) :
    x.isMatch e a = true ↔ x.isUniversal e.class? = true ∨
      x.classesCompatible e.class? a.class? = true ∨ (x.namesMatch e a).holds = true := by
  rw [matchStep settled]
  exact x.compareApart _ left right apart

/- Whatever the resolver, one way to go on after references serves all pairs of types. -/
theorem matchCompares (x : Context) : ∃ resume, ∀ e a, x.isMatch e a = (x.compare resume e a).holds := by
  cases reach : x.resolver.reach with
  | zero => exact ⟨fun _ _ => .yes, fun e a => by rw [isMatch, verdict, reach, compareWithin]⟩
  | succ steps => exact ⟨x.compareWithin steps, fun e a => by rw [isMatch, verdict, reach, compareWithin]⟩

end Context

/- No declared class is called like a tuple is displayed. -/
def ClassTable.NoTupleNames (t : ClassTable) : Prop :=
  ∀ d ∈ t.decls, ∀ n ∈ d.name, ¬ "tuple(".toList <+: n.toList

instance (t : ClassTable) : Decidable t.NoTupleNames := by
  unfold ClassTable.NoTupleNames
  infer_instance

theorem ClassTable.nameDeclared {t : ClassTable} {c : ClassId} {n : String} (named : t.name? c = some n) :
    ∃ d ∈ t.decls, n ∈ d.name := by
  obtain ⟨d, found, name⟩ := Option.bind_eq_some_iff.mp named
  cases c with
  | zero => simp [decl?] at found
  | succ i => exact ⟨d, List.mem_of_getElem? found, name⟩

theorem NumericTier.namePlain {n : String} {k : NumericTier} (tier : ofName? n = some k) :
    ¬ "tuple(".toList <+: n.toList := by
  unfold ofName? at tier
  split_ifs at tier with h h h h h <;> (subst h; decide)

namespace Context

variable {x : Context}

theorem tupleBegins (elements : String) : "tuple(".toList <+: ("tuple(" ++ elements).toList := by
  rw [String.toList_append]
  exact List.prefix_append _ _

theorem tupleTierless (elements : String) : NumericTier.ofName? ("tuple(" ++ elements) = none := by
  cases tier : NumericTier.ofName? ("tuple(" ++ elements) with
  | none => rfl
  | some k => exact absurd (tupleBegins elements) (NumericTier.namePlain tier)

theorem tuplePromotesNothing (elements n : String) : NumericTier.promotes ("tuple(" ++ elements) n = false ∧
    NumericTier.promotes n ("tuple(" ++ elements) = false := by
  constructor
  · simp [NumericTier.promotes, tupleTierless]
  · simp only [NumericTier.promotes, tupleTierless]
    split <;> simp_all

/- A tuple and a class that is no tuple are never related by their names, if both have one. -/
theorem tupleNamesApart (plain : x.classes.NoTupleNames) {c : ClassId} {n : String} (elements : String)
    (named : x.classes.name? c = some n) :
    "tuple(" ++ elements ≠ n ∧ NumericTier.promotes ("tuple(" ++ elements) n = false ∧
      NumericTier.promotes n ("tuple(" ++ elements) = false := by
  refine ⟨?_, tuplePromotesNothing elements n⟩
  rintro rfl
  obtain ⟨d, member, name⟩ := ClassTable.nameDeclared named
  exact plain d member _ name (tupleBegins elements)

end Context
end GradualTypes
