import GradualTypes.Proofs.NominalQueries

/-! Classes that say nothing. Where a class is absent or not declared, two types match as far as their elements
do. A class that is declared without a name is let through by the display names alone: collections never come
to that rule, and a tuple has a display name whatever its class is called, so that these can fail to match for
want of a name. -/
namespace GradualTypes.Context

variable {x : Context} {c d : Option ClassId} {e a : Ty}

/- There is no class, or it is not declared. -/
def Undeclared (x : Context) (c : Option ClassId) : Prop := ∀ k ∈ c, x.classes.decl? k = none

/- There is no class, or it is not declared, or declared without a name. -/
def Nameless (x : Context) (c : Option ClassId) : Prop :=
  ∀ k ∈ c, ∀ decl ∈ x.classes.decl? k, decl.name = none

theorem namelessIff : x.Nameless c ↔ c.bind x.classes.name? = none := by
  cases c with
  | none => simp [Nameless]
  | some k => simp [Nameless, ClassTable.name?, Option.bind_eq_none_iff]

theorem undeclaredCompatible (gap : x.Undeclared c ∨ x.Undeclared d) : x.classesCompatible c d = true := by
  cases c with
  | none => rfl
  | some p =>
    cases d with
    | none => rfl
    | some b =>
      rcases gap with sup | sub
      · exact compatibleIff.mpr (.inl (sup p rfl))
      · exact compatibleIff.mpr (.inr (.inl (sub b rfl)))

/- What two types have to compare besides their classes. -/
def elementMatch (x : Context) : Ty → Ty → Bool
  | .collection _ s, .collection _ t => x.isMatch s t
  | _, _ => true

theorem elementMatchApart (apart : ¬ ∃ c s d t, e = .collection c s ∧ a = .collection d t) :
    x.elementMatch e a = true := by
  unfold elementMatch
  split
  · exact absurd ⟨_, _, _, _, rfl, rfl⟩ apart
  · rfl

/- The one is a tuple with a class that has no name, and the other is called differently. -/
def TupleCalled (x : Context) (one other : Ty) : Prop :=
  ∃ c es n, one = .tuple c es ∧ x.Nameless c ∧ other.name? x.classes = some n ∧
    (Ty.tuple c es).name? x.classes ≠ some n

theorem namesMatchIff : (x.namesMatch e a).holds = true ↔
    ∀ m n, e.name? x.classes = some m → a.name? x.classes = some n →
      m = n ∨ NumericTier.promotes m n = true := by
  unfold namesMatch
  cases e.name? x.classes <;> cases a.name? x.classes <;> simp [Verdict.yes]

theorem tupleName (classes : ClassTable) (c : Option ClassId) (es : List Ty) :
    ∃ parts, (Ty.tuple c es).name? classes = some ("tuple(" ++ parts) :=
  ⟨Ty.joinLabels ", " (Ty.labels classes es) ++ ")", by rw [Ty.name?, String.append_assoc]⟩

/- Without a name of its class, a type of a class has a display name only if it is a tuple. -/
theorem namelessTuple {m : String} (classLike : e.isClassLike = true) (nameless : x.Nameless e.class?)
    (named : e.name? x.classes = some m) : ∃ c es, e = .tuple c es := by
  cases e with
  | nominal c | collection c =>
    have none' : c.bind x.classes.name? = none := namelessIff.mp nameless
    rw [Ty.name?, none'] at named
    cases named
  | tuple c es => exact ⟨c, es, rfl⟩
  | _ => cases classLike

/- A tuple and a type that is called differently have two names, and neither is promoted to the other. -/
theorem tupleCalledNames {one other : Ty} (called : x.TupleCalled one other) :
    ∃ m n, one.name? x.classes = some m ∧ other.name? x.classes = some n ∧ m ≠ n ∧
      NumericTier.promotes m n = false ∧ NumericTier.promotes n m = false := by
  obtain ⟨c, es, n, rfl, -, named, different⟩ := called
  obtain ⟨parts, name⟩ := tupleName x.classes c es
  exact ⟨_, n, name, named, fun same => different (same ▸ name), tuplePromotesNothing parts n⟩

/- Where a class has no name, display names speak against a match for tuples only. -/
theorem namelessNames (left : e.isClassLike = true) (right : a.isClassLike = true)
    (gap : x.Nameless e.class? ∨ x.Nameless a.class?) :
    (x.namesMatch e a).holds = true ↔ ¬ (x.TupleCalled e a ∨ x.TupleCalled a e) := by
  rw [namesMatchIff]
  constructor
  · rintro agree (called | called)
    · obtain ⟨m, n, sup, sub, differ, lower, -⟩ := tupleCalledNames called
      rcases agree m n sup sub with same | promoted
      · exact differ same
      · simp [lower] at promoted
    · obtain ⟨n, m, sub, sup, differ, -, lower⟩ := tupleCalledNames called
      rcases agree m n sup sub with same | promoted
      · exact differ same.symm
      · simp [lower] at promoted
  · intro apart m n sup sub
    by_contra differ
    obtain ⟨other, -⟩ := not_or.mp differ
    rcases gap with nameless | nameless
    · obtain ⟨c, es, rfl⟩ := namelessTuple left nameless sup
      exact apart (.inl ⟨c, es, n, rfl, nameless, sub, fun same => other (Option.some.inj (sup.symm.trans same))⟩)
    · obtain ⟨c, es, rfl⟩ := namelessTuple right nameless sub
      exact apart (.inr ⟨c, es, m, rfl, nameless, sup, fun same => other (Option.some.inj (same.symm.trans sub))⟩)

theorem matchElements (x : Context) (c d : Option ClassId) (s t : Ty) (special : x.isUniversal c = false) :
    x.isMatch (.collection c s) (.collection d t) = (x.classesCompatible c d && x.isMatch s t) := by
  obtain ⟨resume, compared⟩ := x.matchCompares
  have rule := x.compareCollections resume c d s t
  rw [← compared, ← compared, special] at rule
  rw [Bool.eq_iff_iff, rule]
  simp

theorem matchNameless (left : e.isClassLike = true) (right : a.isClassLike = true) (apart : paired e a = false)
    (special : x.isUniversal e.class? = false) (gap : x.Nameless e.class? ∨ x.Nameless a.class?) :
    x.isMatch e a = true ↔
      x.classesCompatible e.class? a.class? = true ∨ ¬ (x.TupleCalled e a ∨ x.TupleCalled a e) := by
  obtain ⟨resume, compared⟩ := x.matchCompares
  have rule := x.compareApart resume left right apart
  rw [← compared, special, namelessNames left right gap] at rule
  simpa using rule

/-- Where the class of one side has no name, the elements decide, unless both classes are declared and not
related: two collections do not match then, and a tuple does not match a type that is called differently. -/
theorem namelessMatch (x : Context) {e a : Ty} (left : e.isClassLike = true) (right : a.isClassLike = true)
    (single : ∀ c es d as, ¬ (e = .tuple c es ∧ a = .tuple d as)) (special : x.isUniversal e.class? = false)
    (gap : x.Nameless e.class? ∨ x.Nameless a.class?) :
    (x.Undeclared e.class? ∨ x.Undeclared a.class? → x.isMatch e a = x.elementMatch e a) ∧
      (x.isMatch e a ≠ x.elementMatch e a ↔
        x.classesCompatible e.class? a.class? = false ∧ x.elementMatch e a = true ∧
          ((∃ c s d t, e = .collection c s ∧ a = .collection d t) ∨ x.TupleCalled e a ∨ x.TupleCalled a e)) := by
  have barred : x.isMatch e a ≠ x.elementMatch e a ↔
      x.classesCompatible e.class? a.class? = false ∧ x.elementMatch e a = true ∧
        ((∃ c s d t, e = .collection c s ∧ a = .collection d t) ∨ x.TupleCalled e a ∨ x.TupleCalled a e) := by
    by_cases collections : ∃ c s d t, e = .collection c s ∧ a = .collection d t
    · obtain ⟨c, s, d, t, rfl, rfl⟩ := collections
      rw [x.matchElements c d s t special]
      simp only [Ty.class?, elementMatch]
      cases x.classesCompatible c d <;> cases x.isMatch s t <;> simp
    · have apart : paired e a = false := by
        rw [Bool.eq_false_iff, ne_eq, pairedIff]
        rintro (both | ⟨c, es, d, as, tuples⟩)
        · exact collections both
        · exact single c es d as tuples
      have rule := matchNameless left right apart special gap
      rw [elementMatchApart collections, ne_eq, rule, or_iff_right collections, not_or, not_not,
        Bool.not_eq_true]
      simp only [true_and]
  refine ⟨fun unknown => ?_, barred⟩
  by_contra differ
  have incompatible := (barred.mp differ).1
  simp [undeclaredCompatible unknown] at incompatible

/- Class 1 has no name and class 2 is called `list`. -/
def anonymous : Context :=
  ⟨⟨[⟨none, none, []⟩, ⟨some "list", none, []⟩]⟩, .empty, .empty, .silent⟩

/- The nameless class stands in the way of a list and of a tuple; class 9 is not declared and stands in no
one's way. -/
theorem anonymousMatch :
    anonymous.isMatch (.collection (some 1) .unknown) (.collection (some 2) .unknown) ≠
        anonymous.elementMatch (.collection (some 1) .unknown) (.collection (some 2) .unknown) ∧
      anonymous.isMatch (.tuple (some 1) []) (.nominal (some 2)) ≠
        anonymous.elementMatch (.tuple (some 1) []) (.nominal (some 2)) ∧
      anonymous.isMatch (.collection (some 9) .unknown) (.collection (some 2) .missing) =
        anonymous.elementMatch (.collection (some 9) .unknown) (.collection (some 2) .missing) := by
  have nameless : anonymous.Nameless (some 1) := namelessIff.mpr (by decide)
  have undeclared : anonymous.Undeclared (some 9) := by
    simp [Undeclared, anonymous, ClassTable.decl?]
  have lists := @namelessMatch anonymous (.collection (some 1) .unknown) (.collection (some 2) .unknown) rfl rfl
    (by simp) (by decide +kernel) (.inl nameless)
  have tuples := @namelessMatch anonymous (.tuple (some 1) []) (.nominal (some 2)) rfl rfl (by simp)
    (by decide +kernel) (.inl nameless)
  have absent := @namelessMatch anonymous (.collection (some 9) .unknown) (.collection (some 2) .missing) rfl rfl
    (by simp) (by decide +kernel) (.inl (namelessIff.mpr (by decide)))
  have called : anonymous.TupleCalled (.tuple (some 1) []) (.nominal (some 2)) :=
    ⟨some 1, [], "list", rfl, nameless, by decide +kernel, by decide +kernel⟩
  refine ⟨lists.2.mpr ⟨by decide +kernel, by decide +kernel, .inl ⟨_, _, _, _, rfl, rfl⟩⟩,
    tuples.2.mpr ⟨by decide +kernel, rfl, .inr (.inl called)⟩, absent.1 (.inl undeclared)⟩

/- So the lack of a name can make a mismatch: of two collections, the first with a nameless class. -/
theorem namelessBars :
    ¬ ∀ (x : Context) (e a : Ty), e.isClassLike = true → a.isClassLike = true →
      (∀ c es d as, ¬ (e = .tuple c es ∧ a = .tuple d as)) → x.isUniversal e.class? = false →
        x.Nameless e.class? ∨ x.Nameless a.class? → x.isMatch e a = x.elementMatch e a := by
  intro forgiven
  have nameless : anonymous.Nameless (some 1) := namelessIff.mpr (by decide)
  have same := forgiven anonymous (.collection (some 1) .unknown) (.collection (some 2) .unknown) rfl rfl
    (by simp) (by decide +kernel) (.inl nameless)
  have differ : anonymous.isMatch (.collection (some 1) .unknown) (.collection (some 2) .unknown) = false ∧
      anonymous.elementMatch (.collection (some 1) .unknown) (.collection (some 2) .unknown) = true := by
    decide +kernel
  rw [differ.1, differ.2] at same
  cases same

end GradualTypes.Context
