import GradualTypes.Proofs.Installation
import Mathlib.Order.Bounds.Defs
import Mathlib.Order.Defs.Unbundled

/-! What a universe represents: which classes its names lead to, how the classes are ordered, and what its
aliases stand for. All of it is read off the invariant of installations and said in terms of the questions
that a universe answers. -/
namespace GradualTypes

/- A type that is met when bindings are followed from a reference: inside what the reference is bound to,
or from another reference that is met. -/
inductive ReferenceTable.Reaches (t : ReferenceTable) : RefId → Ty → Prop where
  | inside {r : RefId} {target p : Ty} (bound : t.binding? r = some target) (part : p.Part target) :
    t.Reaches r p
  | through {r q : RefId} {p : Ty} (met : t.Reaches r (.reference q)) (rest : t.Reaches q p) : t.Reaches r p

namespace Universe

/- The universe is that of these stubs, declared in their order. -/
structure Represents (u : Universe) (stubs : List ClassStub) : Prop where
  ids : ∀ c, (u.classes.decl? c).isSome ↔ 1 ≤ c ∧ c ≤ stubs.length
  decls : ∀ (i : Nat) (s : ClassStub), stubs[i]? = some s →
    u.classes.decl? (i + 1) = some ⟨some s.name, s.scope, s.members⟩
  index : ∀ name c, u.names.lookup name = some c ↔
    ∃ (i : Nat) (s : ClassStub), stubs[i]? = some s ∧ s.qualifiedName = name ∧ c = i + 1
  -- The qualified name counts before the short name, and of several short names the first.
  found : ∀ name c, u.class? name = some c ↔ u.names.lookup name = some c ∨
    u.names.lookup name = none ∧ IsLeast {d | u.classes.name? d = some name} c
  basesDeclared : ∀ c b, u.graph.HasBase c b → (u.classes.decl? c).isSome ∧ (u.classes.decl? b).isSome
  basesOnce : ∀ c, (u.graph.bases c).Nodup
  acyclic : u.graph.Acyclic
  order : IsPartialOrder ClassId (fun c a => u.graph.isDerivedFrom c a = true)
  aliasesApart : ∀ a b r, u.alias? a = some r → u.alias? b = some r → a = b
  boundAliases : ∀ r, (u.references.binding? r).isSome → ∃ a, u.alias? a = some r
  reached : ∀ r t, u.references.Reaches r t → t ≠ .missing ∧
    (∀ c, t.class? = some c → (u.classes.decl? c).isSome) ∧
    ∀ q, t = .reference q → ∃ a, u.alias? a = some q

variable {u : Universe} {stubs : List ClassStub}

theorem declOfStub (consistent : u.Consistent stubs) (i : Nat) :
    u.classes.decl? (i + 1) = stubs[i]?.map ClassStub.decl := by
  rw [ClassTable.decl?, consistent.indexed.decls, List.getElem?_map]

theorem declaredIff (consistent : u.Consistent stubs) (c : ClassId) :
    (u.classes.decl? c).isSome ↔ c.IsAmong stubs.length := by
  cases c with
  | zero => simp [ClassTable.decl?, ClassId.IsAmong]
  | succ i =>
    have inside : stubs[i]?.isSome ↔ i < stubs.length := by simp
    rw [declOfStub consistent, Option.isSome_map, inside]
    exact ⟨fun less => ⟨Nat.le_add_left 1 i, less⟩, fun among => among.2⟩

theorem nameIff (consistent : u.Consistent stubs) (name : String) (c : ClassId) :
    u.classes.name? c = some name ↔
      ∃ (i : Nat) (s : ClassStub), stubs[i]? = some s ∧ s.name = name ∧ c = i + 1 := by
  cases c with
  | zero => simp [ClassTable.name?, ClassTable.decl?]
  | succ n =>
    rw [ClassTable.name?, declOfStub consistent]
    constructor
    · intro named
      obtain ⟨d, mapped, named⟩ := Option.bind_eq_some_iff.mp named
      obtain ⟨s, at', rfl⟩ := Option.map_eq_some_iff.mp mapped
      exact ⟨n, s, at', Option.some.inj named, rfl⟩
    · rintro ⟨i, s, at', rfl, same⟩
      cases same
      simp [at', ClassStub.decl]

/- A short name stands for the least id declared under it. -/
theorem shortIff (consistent : u.Consistent stubs) (name : String) (c : ClassId) :
    u.shortNames.lookup name = some c ↔ IsLeast {d | u.classes.name? d = some name} c := by
  rw [consistent.indexed.shortNames, ClassStub.firstWithIff]
  constructor
  · rintro ⟨i, s, at', named, rfl, least⟩
    refine ⟨(nameIff consistent name _).mpr ⟨i, s, at', named, rfl⟩, fun d same => ?_⟩
    obtain ⟨j, s', there, named', rfl⟩ := (nameIff consistent name d).mp same
    exact Nat.succ_le_succ (least j s' there named')
  · rintro ⟨same, least⟩
    obtain ⟨i, s, at', named, rfl⟩ := (nameIff consistent name c).mp same
    refine ⟨i, s, at', named, rfl, fun j s' there named' => ?_⟩
    exact Nat.le_of_succ_le_succ (least ((nameIff consistent name (j + 1)).mpr ⟨j, s', there, named', rfl⟩))

/- No two classes have one qualified name, so that the first with it is the only one. -/
theorem indexIff (consistent : u.Consistent stubs) (name : String) (c : ClassId) :
    u.names.lookup name = some c ↔
      ∃ (i : Nat) (s : ClassStub), stubs[i]? = some s ∧ s.qualifiedName = name ∧ c = i + 1 := by
  rw [consistent.indexed.names, ClassStub.onlyWithIff consistent.indexed.distinct]

theorem classIff (consistent : u.Consistent stubs) (name : String) (c : ClassId) :
    u.class? name = some c ↔ u.names.lookup name = some c ∨
      u.names.lookup name = none ∧ IsLeast {d | u.classes.name? d = some name} c := by
  rw [← shortIff consistent, class?]
  cases u.names.lookup name <;> simp

theorem derivationOrders (consistent : u.Consistent stubs) :
    IsPartialOrder ClassId (fun c a => u.graph.isDerivedFrom c a = true) where
  refl _ := InheritanceGraph.derivedIff.mpr .refl
  trans _ _ _ first second :=
    InheritanceGraph.derivedIff.mpr
      ((InheritanceGraph.derivedIff.mp first).trans (InheritanceGraph.derivedIff.mp second))
  antisymm _ _ there back :=
    consistent.guarded.acyclic.antisymm (InheritanceGraph.derivedIff.mp there)
      (InheritanceGraph.derivedIff.mp back)

theorem reachedFits (consistent : u.Consistent stubs) {r : RefId} {t : Ty} (met : u.references.Reaches r t) :
    t.Fits (·.IsAmong stubs.length) (IsAlias u.aliases) := by
  induction met with
  | inside bound part => exact consistent.tied.fits _ _ _ bound part
  | through _ _ _ ih => exact ih

theorem represents (consistent : u.Consistent stubs) : u.Represents stubs where
  ids := declaredIff consistent
  decls i s at' := by
    rw [declOfStub consistent, at']
    rfl
  index := indexIff consistent
  found := classIff consistent
  basesDeclared c b base := by
    rw [declaredIff consistent, declaredIff consistent]
    exact consistent.guarded.within c b base
  basesOnce := consistent.guarded.once
  acyclic := consistent.guarded.acyclic
  order := derivationOrders consistent
  aliasesApart := consistent.tied.distinct
  boundAliases r bound := by
    obtain ⟨target, bound⟩ := Option.isSome_iff_exists.mp bound
    exact consistent.tied.bound r target bound
  reached r t met := by
    have fits := reachedFits consistent met
    exact ⟨fits.known, fun c is => (declaredIff consistent c).mpr (fits.classes c is), fits.references⟩

/-- After any manifests, each installed or refused in part, a universe represents exactly the stubs that
were accepted, whether it began empty or with the builtin classes. -/
theorem runRepresents (manifests : List Manifest) :
    (empty.run manifests).Represents (declared [] manifests) ∧
      (withBuiltins.run manifests).Represents (declared [] (.builtins :: manifests)) :=
  ⟨represents (runKeeps emptyConsistent manifests),
    represents (runKeeps emptyConsistent (.builtins :: manifests))⟩

end Universe
end GradualTypes
