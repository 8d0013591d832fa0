import GradualTypes.Proofs.Linking
import GradualTypes.Proofs.Mentions

/-! The other parts of an installation: classes are declared, then protocols registered, aliases declared
and their bodies bound. Of each part it is said when it goes through, what it then leaves behind, and what
it leaves alone in any case. -/
namespace GradualTypes

namespace ClassStub

variable {text : ClassStub → String} {name : String}

theorem firstWithAppend (stubs more : List ClassStub) : firstWith text (stubs ++ more) name =
    (firstWith text stubs name).or ((firstWith text more name).map (stubs.length + ·)) := by
  unfold firstWith
  rw [List.findIdx?_append]
  cases stubs.findIdx? (fun s => text s == name) with
  | some i => rfl
  | none =>
    cases more.findIdx? (fun s => text s == name) with
    | none => rfl
    | some i =>
      have shifted : i + stubs.length + 1 = stubs.length + (i + 1) := by omega
      exact congrArg some shifted

end ClassStub

namespace Universe

variable {u v : Universe} {stubs : List ClassStub}

theorem declareClassesFrame {α : Type} (f : Universe → α)
    (blind : ∀ u a b c, f { u with classes := a, names := b, shortNames := c } = f u) (u : Universe)
    (more : List ClassStub) : f (u.declareClasses more).1 = f u := by
  induction more generalizing u with
  | nil => rfl
  | cons s rest ih =>
    refine andThenFrame ?_ ih
    unfold declareClass
    split
    · rfl
    · exact blind u _ _ _

/- All classes are declared exactly if no qualified name is taken or occurs twice. -/
theorem declareClassesIff (consistent : u.Consistent stubs) (more : List ClassStub) :
    (u.declareClasses more).2 = none ↔ (more.map ClassStub.qualifiedName).Nodup ∧
      ∀ s ∈ more, s.qualifiedName ∉ stubs.map ClassStub.qualifiedName := by
  induction more generalizing u stubs with
  | nil => simp [declareClasses]
  | cons s rest ih =>
    by_cases taken : s.qualifiedName ∈ stubs.map ClassStub.qualifiedName
    · simp only [declareClasses, declareClassTaken consistent taken, andThen, List.forall_mem_cons]
      simp [taken]
    · obtain ⟨done, kept⟩ := declareClassFresh consistent taken
      rw [declareClasses, andThenNone, ih kept]
      simp only [done, true_and, List.map_cons, List.nodup_cons, List.forall_mem_cons, List.map_append,
        List.map_nil, List.mem_append, List.mem_singleton, List.mem_map]
      grind

/- A name leads to the class it qualifies, or else to the first class with that short name. -/
theorem classOf (consistent : u.Consistent stubs) (name : String) :
    u.class? name = (ClassStub.firstWith ClassStub.qualifiedName stubs name).or
      (ClassStub.firstWith ClassStub.name stubs name) := by
  rw [class?, ← consistent.indexed.names, ← consistent.indexed.shortNames]
  cases u.names.lookup name <;> rfl

theorem registerProtocolsFrame {α : Type} (f : Universe → α)
    (blind : ∀ u p, f { u with protocols := p } = f u) (u : Universe) (protocols : List ProtocolStub) :
    f (u.registerProtocols protocols) = f u := by
  induction protocols generalizing u with
  | nil => rfl
  | cons p rest ih => exact (ih _).trans (blind u _)

theorem declareAliasesFrame {α : Type} (f : Universe → α)
    (blind : ∀ u d a, f { u with references := ⟨d, u.references.bindings⟩, aliases := a } = f u) (u : Universe)
    (entries : List (String × TypeExpr)) : f (u.declareAliases entries).1 = f u := by
  induction entries generalizing u with
  | nil => rfl
  | cons a rest ih =>
    refine andThenFrame ?_ ih
    unfold declareAlias
    split
    · rfl
    · exact blind u _ _

theorem declareAliasFresh {name : String} (fresh : u.alias? name = none) : u.declareAlias name =
    ({ u with
      references := u.references.declare.2
      aliases := u.aliases ++ [(name, u.references.declared + 1)] }, none) := by
  simp [declareAlias, fresh, ReferenceTable.declare]

theorem declareAliasTaken {name : String} {r : RefId} (taken : u.alias? name = some r) :
    u.declareAlias name = (u, some (.duplicateAlias name)) := by
  simp [declareAlias, taken]

/- All aliases are declared exactly if none of their names is taken. -/
theorem declareAliasesIff {entries : List (String × TypeExpr)} (distinct : (entries.map Prod.fst).Nodup) :
    (u.declareAliases entries).2 = none ↔ ∀ a ∈ entries, u.alias? a.1 = none := by
  induction entries generalizing u with
  | nil => simp [declareAliases]
  | cons a rest ih =>
    obtain ⟨first, later⟩ := List.nodup_cons.mp distinct
    rw [declareAliases, andThenNone, List.forall_mem_cons]
    cases known : u.alias? a.1 with
    | some r => simp [declareAliasTaken known]
    | none =>
      rw [declareAliasFresh known, ih later]
      simp only [alias?, lookupAdded, true_and]
      refine forall₂_congr fun b member => ?_
      have other : b.1 ≠ a.1 := fun same => first (same ▸ List.mem_map_of_mem member)
      simp [other]

/- New aliases have new references, numbered in the order in which they are declared. -/
theorem declareAliasesFinds {entries : List (String × TypeExpr)} (done : (u.declareAliases entries).2 = none)
    {name : String} {r : RefId} : (u.declareAliases entries).1.alias? name = some r ↔
      u.alias? name = some r ∨ ∃ (i : Nat) (a : String × TypeExpr), entries[i]? = some a ∧ a.1 = name ∧
        r = u.references.declared + 1 + i := by
  induction entries generalizing u with
  | nil => simp [declareAliases]
  | cons a rest ih =>
    rw [declareAliases, andThenNone] at done
    rw [declareAliases, andThenDone done.1, ih done.2]
    cases known : u.alias? a.1 with
    | some r => simp [declareAliasTaken known] at done
    | none =>
      rw [declareAliasFresh known, alias?, lookupFresh known, or_assoc]
      refine or_congr_right ⟨?_, ?_⟩
      · rintro (⟨rfl, rfl⟩ | ⟨i, b, at', same, rfl⟩)
        · exact ⟨0, a, rfl, rfl, rfl⟩
        · exact ⟨i + 1, b, at', same, (Nat.add_right_comm _ 1 i).trans (Nat.add_assoc _ i 1)⟩
      · rintro ⟨_ | i, b, at', same, rfl⟩
        · cases at'
          exact .inl ⟨same.symm, rfl⟩
        · exact .inr ⟨i, b, at', same, (Nat.add_assoc _ i 1).symm.trans (Nat.add_right_comm _ i 1)⟩

theorem declareAliasesKnown {entries : List (String × TypeExpr)} (done : (u.declareAliases entries).2 = none)
    (name : String) : ((u.declareAliases entries).1.alias? name).isSome ↔
      (u.alias? name).isSome ∨ name ∈ entries.map Prod.fst := by
  simp only [Option.isSome_iff_exists, declareAliasesFinds done, exists_or]
  refine or_congr_right ⟨?_, fun named => ?_⟩
  · rintro ⟨r, i, a, at', rfl, -⟩
    exact List.mem_map_of_mem (List.mem_of_getElem? at')
  · obtain ⟨a, member, rfl⟩ := List.mem_map.mp named
    obtain ⟨i, at'⟩ := List.mem_iff_getElem?.mp member
    exact ⟨u.references.declared + 1 + i, i, a, at', rfl, rfl⟩

/- Binding changes nothing but bindings. -/
theorem bindAliasFrame {α : Type} (f : Universe → α) (blind : ∀ u t, f { u with references := t } = f u)
    (u : Universe) (name : String) (body : TypeExpr) : f (u.bindAlias name body).1 = f u := by
  unfold bindAlias
  split
  · rfl
  · split
    · rfl
    · exact blind u _

theorem bindAliasesFrame {α : Type} (f : Universe → α) (blind : ∀ u t, f { u with references := t } = f u)
    (u : Universe) (entries : List (String × TypeExpr)) : f (u.bindAliases entries).1 = f u := by
  induction entries generalizing u with
  | nil => rfl
  | cons a rest ih => exact andThenFrame (bindAliasFrame f blind u a.1 a.2) ih

theorem bindAliasIff (u : Universe) (name : String) (body : TypeExpr) :
    (u.bindAlias name body).2 = none ↔ ∀ m ∈ body.mentions, u.knows m = true := by
  rw [← lowersIff]
  unfold bindAlias
  cases u.lower body with
  | error e => simp
  | ok target => cases u.alias? name <;> simp

/- All bodies are bound exactly if every name in them is known. -/
theorem bindAliasesIff (u : Universe) (entries : List (String × TypeExpr)) :
    (u.bindAliases entries).2 = none ↔ ∀ a ∈ entries, ∀ m ∈ a.2.mentions, u.knows m = true := by
  induction entries generalizing u with
  | nil => simp [bindAliases]
  | cons a rest ih =>
    have same := bindAliasFrame knows (fun _ _ => rfl) u a.1 a.2
    rw [bindAliases, andThenNone, bindAliasIff, ih, same, List.forall_mem_cons]

/- A reference that is none of the aliases keeps its binding. -/
theorem bindAliasOthers {name : String} {r : RefId} (apart : u.alias? name ≠ some r) (body : TypeExpr) :
    (u.bindAlias name body).1.references.binding? r = u.references.binding? r := by
  unfold bindAlias
  split
  · rfl
  · split
    · rfl
    · rename_i q named
      have other : r ≠ q := fun same => apart (same ▸ named)
      simp [ReferenceTable.bindingBind, other]

theorem bindAliasesOthers {entries : List (String × TypeExpr)} {r : RefId}
    (apart : ∀ a ∈ entries, u.alias? a.1 ≠ some r) :
    (u.bindAliases entries).1.references.binding? r = u.references.binding? r := by
  induction entries generalizing u with
  | nil => rfl
  | cons a rest ih =>
    obtain ⟨first, later⟩ := List.forall_mem_cons.mp apart
    have here := bindAliasOthers first a.2
    have same := bindAliasFrame alias? (fun _ _ => rfl) u a.1 a.2
    exact andThenEnds (fun v => v.references.binding? r = u.references.binding? r) here
      fun _ => (ih (same ▸ later)).trans here

/- Where aliases have references of their own, each is bound in the end to what its body lowers to. -/
theorem bindAliasesBinds {entries : List (String × TypeExpr)}
    (apart : ∀ a b r, u.alias? a = some r → u.alias? b = some r → a = b)
    (distinct : (entries.map Prod.fst).Nodup) (done : (u.bindAliases entries).2 = none) :
    ∀ a ∈ entries, ∀ r, u.alias? a.1 = some r →
      ∃ t, u.lower a.2 = .ok t ∧ (u.bindAliases entries).1.references.binding? r = some t := by
  induction entries generalizing u with
  | nil => simp
  | cons b rest ih =>
    obtain ⟨first, later⟩ := List.nodup_cons.mp distinct
    rw [bindAliases, andThenNone] at done
    have found := bindAliasFrame alias? (fun _ _ => rfl) u b.1 b.2
    have classes := bindAliasFrame class? (fun _ _ => rfl) u b.1 b.2
    rw [bindAliases, andThenDone done.1]
    intro a member r named
    rcases List.mem_cons.mp member with rfl | inside
    · obtain ⟨t, lowers⟩ := lowersIff.mpr ((bindAliasIff u a.1 a.2).mp done.1)
      refine ⟨t, lowers, ?_⟩
      rw [bindAliasesOthers, bindAlias, lowers]
      · simp [named, ReferenceTable.bindingBind]
      · intro b member same
        rw [found] at same
        exact first (apart _ _ r same named ▸ List.mem_map_of_mem member)
    · have keeps : (u.bindAlias b.1 b.2).1.Keeps u :=
        ⟨fun _ _ h => classes ▸ h, fun _ _ h => found ▸ h, by rw [classes]⟩
      obtain ⟨t, lowers, bound⟩ := ih (found ▸ apart) later done.2 a inside r (found ▸ named)
      exact ⟨t, lowerKept keeps a.2 lowers, bound⟩

/- The universe after each part of an installation. -/
def afterClasses (u : Universe) (m : Manifest) : Universe := (u.declareClasses m.classes).1

def afterBases (u : Universe) (m : Manifest) : Universe :=
  ((u.afterClasses m).linkClasses (u.classes.size + 1) m.classes).1

def afterProtocols (u : Universe) (m : Manifest) : Universe := (u.afterBases m).registerProtocols m.protocols

def afterAliases (u : Universe) (m : Manifest) : Universe :=
  ((u.afterProtocols m).declareAliases m.aliases.entries).1

theorem afterBasesFrame {α : Type} (f : Universe → α) (blind : ∀ u g, f { u with graph := g } = f u)
    (u : Universe) (m : Manifest) : f (u.afterBases m) = f (u.afterClasses m) := by
  rw [afterBases, linkClassesAll]
  exact linkAllFrame f blind _ _

/- Up to the protocols nothing is touched that is read without classes, bases and protocols. -/
theorem afterProtocolsFrame {α : Type} (f : Universe → α)
    (blind : ∀ u a b c g p,
      f { u with classes := a, names := b, shortNames := c, graph := g, protocols := p } = f u)
    (u : Universe) (m : Manifest) : f (u.afterProtocols m) = f u := by
  have protocols : ∀ v p, f { v with protocols := p } = f v := fun v p => blind v _ _ _ _ p
  have bases : ∀ v g, f { v with graph := g } = f v := fun v g => blind v _ _ _ g _
  have classes : ∀ v a b c, f { v with classes := a, names := b, shortNames := c } = f v :=
    fun v a b c => blind v a b c _ _
  rw [afterProtocols, registerProtocolsFrame f protocols, afterBasesFrame f bases, afterClasses,
    declareClassesFrame f classes]

theorem afterProtocolsAliases (u : Universe) (m : Manifest) : (u.afterProtocols m).alias? = u.alias? :=
  afterProtocolsFrame alias? (fun _ _ _ _ _ _ => rfl) u m

theorem installIff (u : Universe) (m : Manifest) : (u.install m).2 = none ↔
    (u.declareClasses m.classes).2 = none ∧
      ((u.afterClasses m).linkClasses (u.classes.size + 1) m.classes).2 = none ∧
      ((u.afterProtocols m).declareAliases m.aliases.entries).2 = none ∧
      ((u.afterAliases m).bindAliases m.aliases.entries).2 = none := by
  unfold install
  simp only [andThenNone]
  rfl

theorem installLast (done : (u.install m).2 = none) :
    (u.install m).1 = ((u.afterAliases m).bindAliases m.aliases.entries).1 := by
  obtain ⟨classes, bases, aliases, -⟩ := (installIff u m).mp done
  unfold install
  rw [andThenDone classes]
  refine (congrArg Prod.fst (andThenDone bases)).trans ?_
  exact congrArg Prod.fst (andThenDone aliases)

end Universe
end GradualTypes
