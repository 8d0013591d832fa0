import GradualTypes.Proofs.AliasTransparency
import GradualTypes.Proofs.Representation
import GradualTypes.Proofs.Satisfaction

/-! Questions about two classes. Between classes that are declared and have a name there are five ways to
match: by the universal class, by a path of bases, by the members a protocol asks for, by one name for
both, and by the numeric tower. A universe declares a named class behind every name that it knows. -/
namespace GradualTypes

theorem NumericTier.promotesIff {expected actual : String} : promotes expected actual = true ↔
    ∃ e a, ofName? expected = some e ∧ ofName? actual = some a ∧ a.rank < e.rank := by
  unfold promotes
  cases ofName? expected <;> cases ofName? actual <;> simp

namespace Context

variable {x : Context} {p b : ClassId} {e n : String}

/- Where a class is not declared, nothing speaks against it. -/
theorem compatibleIff : x.classesCompatible (some p) (some b) = true ↔
    x.classes.decl? p = none ∨ x.classes.decl? b = none ∨ x.graph.Path b p ∨
      x.protocols.isStructuralSubclass x.classes x.graph b p = true ∨
      ∃ n, x.classes.name? b = some n ∧ x.classes.name? p = some n := by
  have names : ∀ pd bd : ClassDecl, sameName pd bd = true ↔ ∃ n, bd.name = some n ∧ pd.name = some n := by
    intro pd bd
    cases called : pd.name <;> cases called' : bd.name <;> simp [sameName, called, called']
  rw [classesCompatible, ClassTable.name?, ClassTable.name?]
  cases x.classes.decl? p <;> cases x.classes.decl? b <;>
    simp [InheritanceGraph.derivedIff, names, or_assoc]

theorem compatibleNamed (sup : x.classes.name? p = some e) (sub : x.classes.name? b = some n) :
    x.classesCompatible (some p) (some b) = true ↔
      x.graph.Path b p ∨ x.protocols.satisfies x.classes x.graph b e = true ∨ e = n := by
  obtain ⟨pd, declared, -⟩ := Option.bind_eq_some_iff.mp sup
  obtain ⟨bd, declared', -⟩ := Option.bind_eq_some_iff.mp sub
  rw [compatibleIff, ProtocolRegistry.isStructuralSubclass, sup, sub]
  simp [declared, declared']

theorem matchNamed (settled : x.resolver.Settled) (sup : x.classes.name? p = some e)
    (sub : x.classes.name? b = some n) :
    x.isMatch (.nominal (some p)) (.nominal (some b)) = true ↔ e = universalName ∨ x.graph.Path b p ∨
      x.protocols.satisfies x.classes x.graph b e = true ∨ e = n ∨ NumericTier.promotes e n = true := by
  have universal : x.isUniversal (some p) = true ↔ e = universalName := by simp [isUniversal, sup]
  have names : (x.namesMatch (.nominal (some p)) (.nominal (some b))).holds = true ↔
      e = n ∨ NumericTier.promotes e n = true := by
    simp [namesMatch, Ty.name?, sup, sub]
  rw [matchApart (e := .nominal (some p)) (a := .nominal (some b)) settled rfl rfl rfl, names]
  simp only [Ty.class?, universal, compatibleNamed sup sub]
  tauto

end Context

namespace Universe

variable {u : Universe} {stubs : List ClassStub} {name : String} {c : ClassId}

theorem lowerNamed (found : u.class? name = some c) : u.lower (.named name) = .ok (.nominal (some c)) := by
  simp [lower, requireClass, found, bind, Except.bind]

theorem foundNamed (consistent : u.Consistent stubs) (found : u.class? name = some c) :
    ∃ short, u.classes.name? c = some short := by
  obtain ⟨d, decl⟩ := Option.isSome_iff_exists.mp ((declaredIff consistent c).mpr (classAmong consistent found))
  obtain ⟨i, rfl⟩ : ∃ i, c = i + 1 := Nat.exists_eq_add_of_le' (classAmong consistent found).1
  rw [declOfStub consistent, Option.map_eq_some_iff] at decl
  obtain ⟨s, at', rfl⟩ := decl
  exact ⟨s.name, (nameIff consistent s.name _).mpr ⟨i, s, at', rfl, rfl⟩⟩

/- The ways in which class `d`, called `n` for short, passes for class `c`, called `e`. -/
def PassesFor (u : Universe) (c d : ClassId) (e n : String) : Prop :=
  e = "object" ∨ u.graph.Path d c ∨
    -- What the protocol named like `c` requires, `d` or a class it reaches through bases declares.
    (∃ requirements, u.protocols.requirements? e = some requirements ∧
      ∀ r ∈ requirements, ∃ member ∈ r, ProtocolRegistry.HasMember u.classes u.graph d member) ∨
    e = n ∨
    ∃ s t, NumericTier.ofName? e = some s ∧ NumericTier.ofName? n = some t ∧ t.rank < s.rank

/-- Two classes of a universe match exactly if the short name of the expected one is `object`, a path of
bases leads to it from the other, its short name is a protocol for which the other has all members, both
have one short name, or both are numeric and the other is lower in the tower. -/
theorem nominalMatch (reached : u.Reached) {a b : String} {ca cb : ClassId} (expected : u.class? a = some ca)
    (actual : u.class? b = some cb) :
    ∃ e n verdict, u.classes.name? ca = some e ∧ u.classes.name? cb = some n ∧
      u.isMatch (.named a) (.named b) = .ok verdict ∧ (verdict = true ↔ u.PassesFor ca cb e n) := by
  obtain ⟨stubs, consistent⟩ := reachedConsistent reached
  obtain ⟨e, sup⟩ := foundNamed consistent expected
  obtain ⟨n, sub⟩ := foundNamed consistent actual
  refine ⟨e, n, _, sup, sub, matchLowered (lowerNamed expected) (lowerNamed actual), ?_⟩
  rw [Context.matchNamed u.contextSettled sup sub, ProtocolRegistry.satisfiesIff, NumericTier.promotesIff]
  rfl

/- Lists have a length, and integers are promoted to floats. -/
theorem builtinQueries :
    (∃ e n verdict, withBuiltins.classes.name? 17 = some e ∧ withBuiltins.classes.name? 12 = some n ∧
      withBuiltins.isMatch (.named "collections.abc.Sized") (.named "list") = .ok verdict ∧
      (verdict = true ↔ withBuiltins.PassesFor 17 12 e n)) ∧
    ∃ e n verdict, withBuiltins.classes.name? 7 = some e ∧ withBuiltins.classes.name? 5 = some n ∧
      withBuiltins.isMatch (.named "float") (.named "int") = .ok verdict ∧
      (verdict = true ↔ withBuiltins.PassesFor 7 5 e n) := by
  obtain ⟨sized, list, float, int⟩ : withBuiltins.class? "collections.abc.Sized" = some 17 ∧
      withBuiltins.class? "list" = some 12 ∧ withBuiltins.class? "float" = some 7 ∧
      withBuiltins.class? "int" = some 5 := by
    decide +kernel
  exact ⟨nominalMatch builtinsReached sized list, nominalMatch builtinsReached float int⟩

end Universe
end GradualTypes
