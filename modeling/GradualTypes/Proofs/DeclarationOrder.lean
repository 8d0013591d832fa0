import GradualTypes.Proofs.Conservation
import GradualTypes.Proofs.RenamedMatch

/-! The order of declarations. Classes and aliases get their ids in the order in which a manifest has them, so
that another order is a renaming. What a manifest needs to be accepted does not depend on it; names lead to the
renamed classes, these have the renamed bases, and aliases are bound to the renamed bodies. -/
namespace GradualTypes

/- The numbers from `n` on change places as `σ` says, counted from there. -/
def shift (n : Nat) (σ : Equiv.Perm Nat) : Equiv.Perm Nat where
  toFun i := if i < n then i else n + σ (i - n)
  invFun i := if i < n then i else n + σ.symm (i - n)
  left_inv i := by
    by_cases low : i < n
    · simp [low]
    · simp [low]
      omega
  right_inv i := by
    by_cases low : i < n
    · simp [low]
    · simp [low]
      omega

variable {n : Nat} {σ : Equiv.Perm Nat}

theorem shiftLow {i : Nat} (low : i < n) : shift n σ i = i := if_pos low

theorem shiftHigh (n : Nat) (σ : Equiv.Perm Nat) (i : Nat) : shift n σ (n + i) = n + σ i := by
  simp [shift]

theorem shiftSucc (σ : Equiv.Perm Nat) (i : Nat) : shift 1 σ (i + 1) = σ i + 1 := by
  rw [Nat.add_comm, shiftHigh, Nat.add_comm]

theorem shiftLowIff {i : Nat} : shift n σ i < n ↔ i < n := by
  refine ⟨fun low => ?_, fun low => (shiftLow low).symm ▸ low⟩
  by_contra high
  obtain ⟨j, rfl⟩ := Nat.exists_eq_add_of_le (Nat.le_of_not_lt high)
  rw [shiftHigh] at low
  exact Nat.not_lt_of_le (Nat.le_add_right n _) low

/- What holds of no number from `n` on holds of a number exactly if it holds of its new place. -/
theorem shiftKept {P : Nat → Prop} (low : ∀ i, P i → i < n) (i : Nat) : P (shift n σ i) ↔ P i := by
  constructor
  · intro holds
    rwa [shiftLow (shiftLowIff.mp (low _ holds))] at holds
  · intro holds
    rwa [shiftLow (low i holds)]

theorem shiftShift (n k : Nat) (σ : Equiv.Perm Nat) : shift n (shift k σ) = shift (n + k) σ := by
  refine Equiv.ext fun i => ?_
  by_cases low : i < n
  · rw [shiftLow low, shiftLow (Nat.lt_add_right k low)]
  · obtain ⟨j, rfl⟩ := Nat.exists_eq_add_of_le (Nat.le_of_not_lt low)
    rw [shiftHigh]
    by_cases inside : j < k
    · rw [shiftLow inside, shiftLow (Nat.add_lt_add_left inside n)]
    · obtain ⟨i, rfl⟩ := Nat.exists_eq_add_of_le (Nat.le_of_not_lt inside)
      rw [shiftHigh, ← Nat.add_assoc n k i, shiftHigh, Nat.add_assoc]

theorem movedIff {o : Option Nat} {i : Nat} : o.map σ = some (σ i) ↔ o = some i := by
  cases o <;> simp

theorem movedOf {o o' : Option Nat} (same : ∀ i, o' = some (σ i) ↔ o = some i) : o' = o.map σ := by
  refine Option.ext fun j => ?_
  obtain ⟨i, rfl⟩ := σ.surjective j
  rw [same, movedIff]

/- What stands at each place of the first list stands at its new place in the second. -/
def Places {α : Type} (σ : Equiv.Perm Nat) (l l' : List α) : Prop := ∀ i, l'[σ i]? = l[i]?

theorem placesOf {α : Type} {l l' : List α} (order : l.Perm l') : ∃ σ, Places σ l l' := by
  induction order with
  | nil => exact ⟨.refl _, fun i => rfl⟩
  | @cons a l l' _ ih =>
    obtain ⟨σ, places⟩ := ih
    refine ⟨shift 1 σ, fun i => ?_⟩
    cases i with
    | zero => rfl
    | succ i => rw [shiftSucc, List.getElem?_cons_succ, places, List.getElem?_cons_succ]
  | swap a b l =>
    refine ⟨Equiv.swap 0 1, fun i => ?_⟩
    match i with
    | 0 => simp
    | 1 => simp
    | i + 2 => simp [Equiv.swap_apply_of_ne_of_ne]
  | trans _ _ ih ih' =>
    obtain ⟨σ, first⟩ := ih
    obtain ⟨σ', second⟩ := ih'
    exact ⟨σ.trans σ', fun i => (second _).trans (first i)⟩

namespace Places

variable {α : Type} {l l' : List α}

theorem behind (places : Places σ l l') (more : List α) :
    Places (shift more.length σ) (more ++ l) (more ++ l') := by
  intro i
  by_cases low : i < more.length
  · rw [shiftLow low, List.getElem?_append_left low, List.getElem?_append_left low]
  · obtain ⟨j, rfl⟩ := Nat.exists_eq_add_of_le (Nat.le_of_not_lt low)
    rw [shiftHigh, List.getElem?_append_right (Nat.le_add_right _ _),
      List.getElem?_append_right (Nat.le_add_right _ _), Nat.add_sub_cancel_left, Nat.add_sub_cancel_left, places]

/- Something is found in both lists at corresponding places. -/
theorem found (places : Places σ l l') {P : α → Prop} {k j : Nat} :
    (∃ (i : Nat) (a : α), l'[i]? = some a ∧ P a ∧ shift k σ j = k + i) ↔
      ∃ (i : Nat) (a : α), l[i]? = some a ∧ P a ∧ j = k + i := by
  constructor
  · rintro ⟨i, a, at', holds, id⟩
    refine ⟨σ.symm i, a, ?_, holds, (shift k σ).injective ?_⟩
    · rw [← places, Equiv.apply_symm_apply, at']
    · rw [id, shiftHigh, Equiv.apply_symm_apply]
  · rintro ⟨i, a, at', holds, rfl⟩
    exact ⟨σ i, a, (places i).trans at', holds, shiftHigh k σ i⟩

end Places

/- The same classes, protocols and aliases, classes and aliases in any order. -/
structure Manifest.Reordered (m m' : Manifest) : Prop where
  classes : m.classes.Perm m'.classes
  protocols : m'.protocols = m.protocols
  aliases : m.aliases.entries.Perm m'.aliases.entries

theorem Manifest.Reordered.symm {m m' : Manifest} (same : m.Reordered m') : m'.Reordered m :=
  ⟨same.classes.symm, same.protocols.symm, same.aliases.symm⟩

/- Where no two stubs have one text, the stub with a certain text is the same in any order. -/
theorem ClassStub.firstWithMoved {text : ClassStub → String} {l l' : List ClassStub} (places : Places σ l l')
    (order : l.Perm l') (apart : (l.map text).Nodup) (name : String) :
    firstWith text l' name = (firstWith text l name).map (shift 1 σ) := by
  have apart' : (l'.map text).Nodup := (order.map text).nodup_iff.mp apart
  refine movedOf fun c => ?_
  rw [onlyWithIff apart', onlyWithIff apart]
  simp only [Nat.add_comm _ 1]
  exact places.found

namespace Universe

variable {u : Universe} {stubs : List ClassStub} {m m' : Manifest} {τ : Equiv.Perm Nat}

/- A name leads to the class that has moved, if neither qualified nor short names are shared. -/
theorem classMoved (consistent : u.Consistent stubs) (same : m.Reordered m')
    (places : Places σ m.classes m'.classes)
    (apart : ((stubs ++ m.classes).map ClassStub.qualifiedName).Nodup)
    (short : ((stubs ++ m.classes).map ClassStub.name).Nodup) (name : String) :
    u.classWith? m'.classes name = (u.classWith? m.classes name).map (shift (u.classes.size + 1) σ) := by
  have order := same.classes.append_left stubs
  rw [classWithOf consistent, classWithOf consistent,
    ClassStub.firstWithMoved (places.behind stubs) order apart,
    ClassStub.firstWithMoved (places.behind stubs) order short, shiftShift, ← Option.map_or, classCount consistent,
    Nat.add_comm 1]

theorem baseMoved (places : Places σ m.classes m'.classes) (found : ∀ name,
      u.classWith? m'.classes name = (u.classWith? m.classes name).map (shift (u.classes.size + 1) σ))
    (c b : ClassId) : u.BaseIn m' (shift (u.classes.size + 1) σ c) (shift (u.classes.size + 1) σ b) ↔
      u.BaseIn m c b := by
  have leads : ∀ name, u.classWith? m'.classes name = some (shift (u.classes.size + 1) σ b) ↔
      u.classWith? m.classes name = some b := by
    intro name
    rw [found, movedIff]
  simp only [BaseIn, leads, and_comm (a := _ = u.classes.size + 1 + _)]
  exact places.found

theorem acceptableReordered (consistent : u.Consistent stubs) (same : m.Reordered m')
    (short : ((stubs ++ m.classes).map ClassStub.name).Nodup) (ok : u.Acceptable m) : u.Acceptable m' := by
  obtain ⟨σ, places⟩ := placesOf same.classes
  have kept := installedConsistent consistent ((acceptableIff consistent m).mpr ok)
  have found := classMoved consistent same places kept.indexed.distinct short
  have known : ∀ name, (u.classWith? m'.classes name).isSome = (u.classWith? m.classes name).isSome := by
    intro name
    rw [found, Option.isSome_map]
  constructor
  · exact (same.classes.map _).nodup_iff.mp ok.namesApart
  · exact fun s member => ok.namesFree s (same.classes.mem_iff.mpr member)
  · exact fun s member base listed =>
      (known base).trans (ok.basesFound s (same.classes.mem_iff.mpr member) base listed)
  · intro c loop
    obtain ⟨d, rfl⟩ := (shift (u.classes.size + 1) σ).surjective c
    exact ok.noCircle d ((walksRenamed _ (baseMoved places found)).mp loop)
  · exact fun a member => ok.aliasesFree a (same.aliases.mem_iff.mpr member)
  · intro a member mention occurs
    have before := ok.mentionsFound a (same.aliases.mem_iff.mpr member) mention occurs
    cases mention with
    | ofClass name => exact (known name).trans before
    | ofAlias name => exact before.imp_right fun listed => (same.aliases.map Prod.fst).mem_iff.mp listed

/- In an accepted manifest every class has the bases it names, and older classes get no others. -/
theorem installedBase (consistent : u.Consistent stubs) (done : (u.install m).2 = none) (c b : ClassId) :
    (u.install m).1.graph.HasBase c b ↔ u.graph.HasBase c b ∨ u.BaseIn m c b := by
  have size := classCount consistent
  have new : ∀ (i : Nat) (s : ClassStub), m.classes[i]? = some s →
      ((u.install m).1.graph.HasBase (u.classes.size + 1 + i) b ↔
        ∃ base ∈ s.bases, u.classWith? m.classes base = some b) := by
    intro i s at'
    rw [InheritanceGraph.HasBase, basesRecorded consistent done at', List.mem_eraseDups, List.mem_filterMap]
  constructor
  · intro base
    by_cases old : c ≤ u.classes.size
    · rw [InheritanceGraph.HasBase, (installExtends u m).bases c old] at base
      exact .inl base
    · obtain ⟨i, rfl⟩ := Nat.exists_eq_add_of_le (Nat.lt_of_not_le old)
      have among : u.classes.size + 1 + i ≤ (stubs ++ m.classes).length :=
        ((installedConsistent consistent done).guarded.within _ b base).1.2
      have inside : i < m.classes.length := by
        rw [List.length_append] at among
        omega
      have at' := List.getElem?_eq_getElem inside
      exact .inr ⟨i, _, at', rfl, (new i _ at').mp base⟩
  · rintro (old | ⟨i, s, at', rfl, named⟩)
    · have among : c ≤ u.classes.size := size ▸ (consistent.guarded.within c b old).1.2
      rw [InheritanceGraph.HasBase, (installExtends u m).bases c among]
      exact old
    · exact (new i s at').mpr named

theorem registerProtocolsAll (u : Universe) (protocols : List ProtocolStub) :
    (u.registerProtocols protocols).protocols =
      protocols.foldl (fun p s => p.register s.name s.requirements) u.protocols := by
  induction protocols generalizing u with
  | nil => rfl
  | cons s rest ih => exact ih _

theorem installedProtocols (done : (u.install m).2 = none) : (u.install m).1.protocols =
    m.protocols.foldl (fun p s => p.register s.name s.requirements) u.protocols := by
  have classes : (u.afterClasses m).protocols = u.protocols :=
    declareClassesFrame protocols (fun _ _ _ _ => rfl) u m.classes
  rw [installLast done, bindAliasesFrame protocols (fun _ _ => rfl), afterAliases,
    declareAliasesFrame protocols (fun _ _ _ => rfl), afterProtocols, registerProtocolsAll,
    afterBasesFrame protocols (fun _ _ => rfl), classes]

theorem installedAlias (done : (u.install m).2 = none) {name : String} {r : RefId} :
    (u.install m).1.alias? name = some r ↔ u.alias? name = some r ∨
      ∃ (i : Nat) (a : String × TypeExpr), m.aliases.entries[i]? = some a ∧ a.1 = name ∧
        r = u.references.declared + 1 + i := by
  have declared := ((installIff u m).mp done).2.2.1
  have references := afterProtocolsFrame Universe.references (fun _ _ _ _ _ _ => rfl) u m
  rw [installLast done, bindAliasesFrame alias? (fun _ _ => rfl), afterAliases, declareAliasesFinds declared,
    afterProtocolsAliases, references]

/- What is bound is what the bodies of the manifest lower to, if nothing was bound before. -/
theorem installedBinding (consistent : u.Consistent stubs) (unbound : ∀ r, u.references.binding? r = none)
    (done : (u.install m).2 = none) {r : RefId} {t : Ty} : (u.install m).1.references.binding? r = some t ↔
      ∃ (i : Nat) (a : String × TypeExpr), m.aliases.entries[i]? = some a ∧ (u.install m).1.lower a.2 = .ok t ∧
        r = u.references.declared + 1 + i := by
  have whole := containsAll consistent done
  constructor
  · intro bound
    obtain ⟨name, named⟩ := (installedConsistent consistent done).tied.bound r t bound
    rcases (installedAlias done).mp named with old | ⟨i, a, at', rfl, rfl⟩
    · rw [(installExtends u m).bindings r (consistent.tied.allotted name r old), unbound] at bound
      cases bound
    · obtain ⟨q, body, named', lowers, bound'⟩ := whole.aliases a (List.mem_of_getElem? at')
      cases named.symm.trans named'
      cases bound.symm.trans bound'
      exact ⟨i, a, at', lowers, rfl⟩
  · rintro ⟨i, a, at', lowers, rfl⟩
    obtain ⟨q, body, named, lowers', bound⟩ := whole.aliases a (List.mem_of_getElem? at')
    cases named.symm.trans ((installedAlias done).mpr (.inr ⟨i, a, at', rfl, rfl⟩))
    cases lowers.symm.trans lowers'
    exact bound

theorem aliasMoved (consistent : u.Consistent stubs) (places : Places τ m.aliases.entries m'.aliases.entries)
    (done : (u.install m).2 = none) (done' : (u.install m').2 = none) (name : String) :
    (u.install m').1.alias? name =
      ((u.install m).1.alias? name).map (shift (u.references.declared + 1) τ) := by
  refine movedOf fun r => ?_
  have old := shiftKept (P := fun r => u.alias? name = some r) (σ := τ) (i := r) fun r named =>
    Nat.lt_succ_of_le (consistent.tied.allotted name r named)
  rw [installedAlias done, installedAlias done', old]
  exact or_congr_right places.found

/- Older classes stay where they are, and so do their bases. -/
theorem oldBaseMoved (consistent : u.Consistent stubs) (σ : Equiv.Perm Nat) (c b : ClassId) :
    u.graph.HasBase (shift (u.classes.size + 1) σ c) (shift (u.classes.size + 1) σ b) ↔ u.graph.HasBase c b := by
  rw [classCount consistent]
  have below := shiftKept (σ := σ) (i := c) fun c (base : u.graph.HasBase c (shift (stubs.length + 1) σ b)) =>
    Nat.lt_succ_of_le (consistent.guarded.within c _ base).1.2
  have above := shiftKept (σ := σ) (i := b) fun b (base : u.graph.HasBase c b) =>
    Nat.lt_succ_of_le (consistent.guarded.within c b base).2.2
  exact below.trans above

theorem declMoved (consistent : u.Consistent stubs) (places : Places σ m.classes m'.classes)
    (done : (u.install m).2 = none) (done' : (u.install m').2 = none) (c : ClassId) :
    (u.install m').1.classes.decl? (shift (u.classes.size + 1) σ c) = (u.install m).1.classes.decl? c := by
  rw [classCount consistent, Nat.add_comm, ← shiftShift]
  match c with
  | 0 => rfl
  | i + 1 =>
    rw [shiftSucc, declOfStub (installedConsistent consistent done),
      declOfStub (installedConsistent consistent done'), places.behind stubs]

/- Bodies are spelled in names, so that each alias that has moved is bound to its binding, renamed. -/
theorem bindingMoved (consistent : u.Consistent stubs) (unbound : ∀ r, u.references.binding? r = none)
    {n : Renaming} (references : n.references = shift (u.references.declared + 1) τ)
    (places : Places τ m.aliases.entries m'.aliases.entries) (done : (u.install m).2 = none)
    (done' : (u.install m').2 = none)
    (lowers : ∀ e t', (u.install m').1.lower e = .ok t' ↔ ∃ t, (u.install m).1.lower e = .ok t ∧ t.rename n = t')
    (r : RefId) : (u.install m').1.references.binding? (n.references r) =
      ((u.install m).1.references.binding? r).map (Ty.rename n) := by
  refine Option.ext fun t' => ?_
  rw [references, installedBinding consistent unbound done', places.found, Option.map_eq_some_iff]
  simp only [installedBinding consistent unbound done, lowers]
  constructor
  · rintro ⟨i, a, at', ⟨t, lowered, renamed⟩, id⟩
    exact ⟨t, ⟨i, a, at', lowered, id⟩, renamed⟩
  · rintro ⟨t, ⟨i, a, at', lowered, id⟩, renamed⟩
    exact ⟨i, a, at', ⟨t, lowered, renamed⟩, id⟩

theorem referencesMoved (consistent : u.Consistent stubs) (unbound : ∀ r, u.references.binding? r = none)
    {n : Renaming} (done : (u.install m).2 = none)
    (moved : ∀ r, (u.install m').1.references.binding? (n.references r) =
      ((u.install m).1.references.binding? r).map (Ty.rename n)) :
    (u.install m).1.references.Renames (u.install m').1.references n where
  direct r := by
    rw [ReferenceTable.direct, ReferenceTable.direct, moved]
    cases (u.install m).1.references.binding? r <;> rfl
  tidy r := by
    rw [ReferenceTable.direct]
    cases bound : (u.install m).1.references.binding? r with
    | none => exact (tidyBuilds u).unknown
    | some t =>
      obtain ⟨i, a, -, lowers, -⟩ := (installedBinding consistent unbound done).mp bound
      exact lowerBuilds (tidyBuilds _) a.2 lowers

/- Where all aliases can be afforded, all references can: the others are unbound. -/
theorem allAffordable (consistent : u.Consistent stubs) {limit : Nat} (some' : 1 ≤ limit)
    (affordable : ∀ name r, u.alias? name = some r → u.references.openings 3 [] r ≤ limit) (r : RefId) :
    u.references.openings 3 [] r ≤ limit := by
  cases bound : u.references.binding? r with
  | some t =>
    obtain ⟨name, named⟩ := consistent.tied.bound r t bound
    exact affordable name r named
  | none =>
    rw [ReferenceTable.openingsOpen (by simp), ReferenceTable.direct, bound]
    exact some'

/- In another order, a manifest leads to the same universe up to a renaming. -/
theorem reorderedRenames (consistent : u.Consistent stubs) (unbound : ∀ r, u.references.binding? r = none)
    (same : m.Reordered m') (short : ((stubs ++ m.classes).map ClassStub.name).Nodup)
    (done : (u.install m).2 = none) (done' : (u.install m').2 = none)
    (affordable : ∀ name r, (u.install m).1.alias? name = some r →
      (u.install m).1.references.openings 3 [] r ≤ 64) :
    ∃ n, (u.install m).1.Renames (u.install m').1 n := by
  obtain ⟨σ, classPlaces⟩ := placesOf same.classes
  obtain ⟨τ, aliasPlaces⟩ := placesOf same.aliases
  have kept := installedConsistent consistent done
  have found := classMoved consistent same classPlaces kept.indexed.distinct short
  let n : Renaming := ⟨shift (u.classes.size + 1) σ, shift (u.references.declared + 1) τ⟩
  have classes : ∀ name, (u.install m').1.class? name = ((u.install m).1.class? name).map n.classes := by
    rw [(containsAll consistent done).found, (containsAll consistent done').found]
    exact found
  have aliases := aliasMoved consistent aliasPlaces done done'
  have references := referencesMoved consistent unbound done
    (bindingMoved consistent unbound (n := n) rfl aliasPlaces done done' fun e t' =>
      (lowerRenamed classes aliases e).okIff)
  refine ⟨n, classes, aliases, declMoved consistent classPlaces done done', fun c b => ?_, ?_, fun r => ?_⟩
  · exact (installedBase consistent done' _ _).trans ((or_congr (oldBaseMoved consistent σ c b)
      (baseMoved classPlaces found c b)).trans (installedBase consistent done c b).symm)
  · exact (installedProtocols done').trans (same.protocols ▸ (installedProtocols done).symm)
  · exact ReferenceTable.resolveRenamed references (allAffordable kept (by decide) affordable r)

theorem builtinsConsistent : withBuiltins.Consistent Manifest.builtinClasses :=
  installedConsistent (m := .builtins) emptyConsistent (by decide +kernel)

theorem builtinsUnbound (r : RefId) : withBuiltins.references.binding? r = none := by
  have none' : withBuiltins.references = .empty := by decide +kernel
  rw [none']
  rfl

theorem plainNames (consistent : u.Consistent stubs) (plain : ∀ s ∈ stubs, ¬ "tuple(".toList <+: s.name.toList) :
    u.classes.NoTupleNames := by
  intro d member name named
  rw [consistent.indexed.decls] at member
  obtain ⟨s, listed, rfl⟩ := List.mem_map.mp member
  exact Option.some.inj named ▸ plain s listed

/-- The order in which classes and aliases are declared does not count, as long as no two classes, builtin or
not, share a short name. The qualified name of one may be the short name of another: in any order qualified names
are looked up first. A manifest is installed in every order or in none. Where no alias takes more openings than
there is budget and no class is named like a tuple, the same expressions can be lowered then, and all of them
match alike. -/
theorem orderIrrelevant {m m' : Manifest} (same : m.Reordered m')
    (short : ((Manifest.builtinClasses ++ m.classes).map ClassStub.name).Nodup)
    (plain : ∀ s ∈ Manifest.builtinClasses ++ m.classes, ¬ "tuple(".toList <+: s.name.toList) :
    let u := (withBuiltins.install m).1
    let v := (withBuiltins.install m').1
    ((withBuiltins.install m).2 = none ↔ (withBuiltins.install m').2 = none) ∧
      ((withBuiltins.install m).2 = none →
        (∀ name r, u.alias? name = some r → u.references.openings 3 [] r ≤ 64) →
        (∀ e, (∃ t, u.lower e = .ok t) ↔ ∃ t, v.lower e = .ok t) ∧
          ∀ expected actual, v.isMatch expected actual = u.isMatch expected actual) := by
  intro u v
  have consistent := builtinsConsistent
  have short' : ((Manifest.builtinClasses ++ m'.classes).map ClassStub.name).Nodup :=
    ((same.classes.append_left _).map _).nodup_iff.mp short
  have accepted : (withBuiltins.install m).2 = none ↔ (withBuiltins.install m').2 = none := by
    rw [acceptableIff consistent, acceptableIff consistent]
    exact ⟨acceptableReordered consistent same short, acceptableReordered consistent same.symm short'⟩
  refine ⟨accepted, fun done affordable => ?_⟩
  obtain ⟨n, renames⟩ := reorderedRenames consistent builtinsUnbound same short done (accepted.mp done) affordable
  exact ⟨lowersRenamed renames, questionRenamed renames (plainNames (installedConsistent consistent done) plain)⟩

/- The fleet with its classes and aliases in reverse order. -/
def fleetReversed : Manifest :=
  ⟨fleet.classes.reverse, fleet.protocols, ⟨fleet.aliases.entries.reverse, by decide⟩⟩

/- Trucks and cars have changed places, and the two aliases, which hold each other, as well. -/
theorem fleetReversedAlike :
    let u := (withBuiltins.install fleet).1
    let v := (withBuiltins.install fleetReversed).1
    fleet.Reordered fleetReversed ∧ (withBuiltins.install fleetReversed).2 = none ∧
      (u.class? "Truck" = some 27 ∧ v.class? "Truck" = some 28) ∧
      (u.alias? "Load" = some 1 ∧ v.alias? "Load" = some 2) ∧
      ∀ expected actual, v.isMatch expected actual = u.isMatch expected actual := by
  intro u v
  have same : fleet.Reordered fleetReversed :=
    ⟨(List.reverse_perm _).symm, rfl, (List.reverse_perm _).symm⟩
  obtain ⟨done, references, aliases, classPlaces, aliasPlaces⟩ : (withBuiltins.install fleet).2 = none ∧
      u.references =
        ⟨2, [(2, .collection (some 12) (.reference 1)), (1, .union [.reference 2, .nominal (some 27)])]⟩ ∧
      u.aliases = [("Load", 1), ("Part", 2)] ∧
      (u.class? "Truck" = some 27 ∧ v.class? "Truck" = some 28) ∧
      u.alias? "Load" = some 1 ∧ v.alias? "Load" = some 2 := by
    decide +kernel
  obtain ⟨accepted, alike⟩ := orderIrrelevant same (by decide +kernel) (by decide)
  refine ⟨same, accepted.mp done, classPlaces, aliasPlaces, (alike done ?_).2⟩
  intro name r named
  rw [alias?, aliases, List.lookup_eq_some_iff] at named
  obtain ⟨before, after, split, -⟩ := named
  have member : (name, r) ∈ [("Load", 1), ("Part", 2)] := by
    rw [split]
    simp
  simp only [List.mem_cons, Prod.mk.injEq, List.not_mem_nil, or_false] at member
  rw [references]
  rcases member with ⟨-, rfl⟩ | ⟨-, rfl⟩ <;> decide +kernel

end Universe
end GradualTypes
