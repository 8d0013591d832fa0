import GradualTypes.Proofs.Acceptance
import GradualTypes.Proofs.Agreement

/-! What an installation leaves as it was. Every store grows by what the manifest names and by nothing else,
at each step and therefore wherever the installation stops. A question that could be asked before is answered
as before, as long as the manifest takes no name that meant an older class. -/
namespace GradualTypes.Universe

variable {u v w : Universe} {stubs : List ClassStub} {m : Manifest}

/- One step of installing `m` on `u`, from wherever the earlier steps led. -/
inductive Step (u : Universe) (m : Manifest) : Universe → Universe → Prop where
  | declareClass (v : Universe) {s : ClassStub} (listed : s ∈ m.classes) : Step u m v (v.declareClass s).1
  | linkBase (v : Universe) {l : Link} (listed : l ∈ linksOf (u.classes.size + 1) m.classes) :
    Step u m v (v.linkBase l.child l.qualified l.base).1
  | registerProtocol (v : Universe) {p : ProtocolStub} (listed : p ∈ m.protocols) :
    Step u m v { v with protocols := v.protocols.register p.name p.requirements }
  | declareAlias (v : Universe) {a : String × TypeExpr} (listed : a ∈ m.aliases.entries) :
    Step u m v (v.declareAlias a.1).1
  -- Bodies are bound after all aliases of the manifest turned out to be new.
  | bindAlias (v : Universe) {a : String × TypeExpr} (listed : a ∈ m.aliases.entries) (new : u.alias? a.1 = none) :
    Step u m v (v.bindAlias a.1 a.2).1

def Steps (u : Universe) (m : Manifest) : Universe → Universe → Prop := Relation.ReflTransGen (u.Step m)

theorem andThenSteps {part : Installed} {next : Universe → Installed} (first : u.Steps m v part.1)
    (later : part.2 = none → u.Steps m part.1 (next part.1).1) : u.Steps m v (andThen part next).1 :=
  andThenEnds (u.Steps m v) first fun done => first.trans (later done)

theorem declareClassesSteps (v : Universe) {more : List ClassStub} (listed : ∀ s ∈ more, s ∈ m.classes) :
    u.Steps m v (v.declareClasses more).1 := by
  induction more generalizing v with
  | nil => exact .refl
  | cons s rest ih =>
    obtain ⟨first, others⟩ := List.forall_mem_cons.mp listed
    exact andThenSteps (.single (.declareClass v first)) (fun _ => ih _ others)

theorem linkAllSteps (v : Universe) {links : List Link}
    (listed : ∀ l ∈ links, l ∈ linksOf (u.classes.size + 1) m.classes) : u.Steps m v (v.linkAll links).1 := by
  induction links generalizing v with
  | nil => exact .refl
  | cons l rest ih =>
    obtain ⟨first, others⟩ := List.forall_mem_cons.mp listed
    exact andThenSteps (.single (.linkBase v first)) (fun _ => ih _ others)

theorem registerProtocolsSteps (v : Universe) {protocols : List ProtocolStub}
    (listed : ∀ p ∈ protocols, p ∈ m.protocols) : u.Steps m v (v.registerProtocols protocols) := by
  induction protocols generalizing v with
  | nil => exact .refl
  | cons p rest ih =>
    obtain ⟨first, others⟩ := List.forall_mem_cons.mp listed
    exact .head (.registerProtocol v first) (ih _ others)

theorem declareAliasesSteps (v : Universe) {entries : List (String × TypeExpr)}
    (listed : ∀ a ∈ entries, a ∈ m.aliases.entries) : u.Steps m v (v.declareAliases entries).1 := by
  induction entries generalizing v with
  | nil => exact .refl
  | cons a rest ih =>
    obtain ⟨first, others⟩ := List.forall_mem_cons.mp listed
    exact andThenSteps (.single (.declareAlias v first)) (fun _ => ih _ others)

theorem bindAliasesSteps (v : Universe) {entries : List (String × TypeExpr)}
    (listed : ∀ a ∈ entries, a ∈ m.aliases.entries) (new : ∀ a ∈ entries, u.alias? a.1 = none) :
    u.Steps m v (v.bindAliases entries).1 := by
  induction entries generalizing v with
  | nil => exact .refl
  | cons a rest ih =>
    obtain ⟨first, others⟩ := List.forall_mem_cons.mp listed
    obtain ⟨here, later⟩ := List.forall_mem_cons.mp new
    exact andThenSteps (.single (.bindAlias v first here)) (fun _ => ih _ others later)

/- An installation is a sequence of steps, whether it ends well or is stopped. -/
theorem installSteps (u : Universe) (m : Manifest) : u.Steps m u (u.install m).1 := by
  unfold install
  refine andThenSteps (declareClassesSteps u fun _ listed => listed) fun _ => ?_
  refine andThenSteps ?_ fun _ => ?_
  · rw [linkClassesAll]
    exact linkAllSteps _ fun _ listed => listed
  refine andThenSteps ?_ fun done => ?_
  · exact (registerProtocolsSteps _ fun _ listed => listed).trans (declareAliasesSteps _ fun _ listed => listed)
  · have new : ∀ a ∈ m.aliases.entries, (u.afterProtocols m).alias? a.1 = none :=
      (declareAliasesIff m.aliases.distinct).mp done
    rw [afterProtocolsAliases] at new
    exact bindAliasesSteps _ (fun _ listed => listed) new

/- All of `u` is in `v` as it was, and what `v` has besides was named by `m`. -/
structure Extends (u : Universe) (m : Manifest) (v : Universe) : Prop where
  decls : u.classes.decls <+: v.classes.decls
  names : ∀ name c, u.names.lookup name = some c → v.names.lookup name = some c
  namesFree : ∀ name, u.names.lookup name = none → name ∉ m.classes.map ClassStub.qualifiedName →
    v.names.lookup name = none
  shortNames : ∀ name c, u.shortNames.lookup name = some c → v.shortNames.lookup name = some c
  bases : ∀ c, c ≤ u.classes.size → v.graph.bases c = u.graph.bases c
  requirements : ∀ name, name ∉ m.protocols.map ProtocolStub.name →
    v.protocols.requirements? name = u.protocols.requirements? name
  aliases : ∀ name r, u.alias? name = some r → v.alias? name = some r
  declared : u.references.declared ≤ v.references.declared
  -- New aliases have new references.
  apart : ∀ name r, u.alias? name = none → v.alias? name = some r → u.references.declared < r
  bindings : ∀ r, r ≤ u.references.declared → v.references.binding? r = u.references.binding? r

theorem Extends.refl (u : Universe) (m : Manifest) : u.Extends m u where
  decls := List.prefix_rfl
  names _ _ found := found
  namesFree _ free _ := free
  shortNames _ _ found := found
  bases _ _ := rfl
  requirements _ _ := rfl
  aliases _ _ named := named
  declared := Nat.le_refl _
  apart name r free named := by simp [free] at named
  bindings _ _ := rfl

theorem Extends.declareClass (ext : u.Extends m v) {s : ClassStub} (listed : s ∈ m.classes) :
    u.Extends m (v.declareClass s).1 := by
  unfold Universe.declareClass
  split
  · exact ext
  refine { ext with decls := ?_, names := ?_, namesFree := ?_, shortNames := ?_ }
  · exact ext.decls.trans (List.prefix_append _ _)
  · intro name c found
    rw [lookupAdded, ext.names name c found]
    rfl
  · intro name free other
    have apart : name ≠ s.qualifiedName := fun same => other (same ▸ List.mem_map_of_mem listed)
    rw [lookupAdded, ext.namesFree name free other, if_neg apart]
    rfl
  · intro name c found
    have kept := ext.shortNames name c found
    dsimp only
    split
    · exact kept
    · rw [lookupAdded, kept]
      rfl

/- Only classes of the manifest get bases. -/
theorem Extends.linkBase (ext : u.Extends m v) {l : Link}
    (listed : l ∈ linksOf (u.classes.size + 1) m.classes) :
    u.Extends m (v.linkBase l.child l.qualified l.base).1 := by
  obtain ⟨i, s, -, base, -, rfl⟩ := memLinksOf.mp listed
  unfold Universe.linkBase
  split
  · exact ext
  split
  · exact ext
  refine { ext with bases := fun c old => ?_ }
  have other : c ≠ u.classes.size + 1 + i := by
    have before : (c : Nat) ≤ u.classes.size := old
    omega
  rw [InheritanceGraph.basesInherit, if_neg other, ext.bases c old]

theorem Extends.registerProtocol (ext : u.Extends m v) {p : ProtocolStub} (listed : p ∈ m.protocols) :
    u.Extends m { v with protocols := v.protocols.register p.name p.requirements } := by
  refine { ext with requirements := fun name other => ?_ }
  have apart : name ≠ p.name := fun same => other (same ▸ List.mem_map_of_mem listed)
  rw [ProtocolRegistry.requirementsRegister, if_neg apart, ext.requirements name other]

theorem Extends.declareAlias (ext : u.Extends m v) (name : String) : u.Extends m (v.declareAlias name).1 := by
  unfold Universe.declareAlias
  split
  · exact ext
  rename_i fresh
  refine { ext with aliases := ?_, declared := ?_, apart := ?_ }
  · intro other r named
    exact (lookupFresh fresh).mpr (.inl (ext.aliases other r named))
  · exact Nat.le_succ_of_le ext.declared
  · intro other r free named
    rcases (lookupFresh fresh).mp named with old | ⟨-, rfl⟩
    · exact ext.apart other r free old
    · exact Nat.lt_succ_of_le ext.declared

theorem Extends.bindAlias (ext : u.Extends m v) {name : String} (new : u.alias? name = none) (body : TypeExpr) :
    u.Extends m (v.bindAlias name body).1 := by
  unfold Universe.bindAlias
  split
  · exact ext
  split
  · exact ext
  rename_i r named
  refine { ext with bindings := fun q old => ?_ }
  have other : q ≠ r := fun same => Nat.not_lt_of_le old (same ▸ ext.apart name r new named)
  rw [ReferenceTable.bindingBind, if_neg other, ext.bindings q old]

theorem Extends.step (ext : u.Extends m v) (step : u.Step m v w) : u.Extends m w := by
  cases step with
  | declareClass listed => exact ext.declareClass listed
  | linkBase listed => exact ext.linkBase listed
  | registerProtocol listed => exact ext.registerProtocol listed
  | declareAlias => exact ext.declareAlias _
  | bindAlias _ new => exact ext.bindAlias new _

/- Wherever an installation stops, what was there before is there as it was. -/
theorem installExtends (u : Universe) (m : Manifest) : u.Extends m (u.install m).1 := by
  have all : ∀ w, u.Steps m u w → u.Extends m w := by
    intro w steps
    induction steps with
    | refl => exact .refl u m
    | tail _ step ih => exact ih.step step
  exact all _ (installSteps u m)

/- A name that leads to a class always will, though a later class may take a short name over. -/
theorem Extends.known (ext : u.Extends m v) {name : String} (known : (u.class? name).isSome) :
    (v.class? name).isSome := by
  unfold class? at known ⊢
  cases full : u.names.lookup name with
  | some c => simp [ext.names name c full]
  | none =>
    rw [full] at known
    obtain ⟨c, short⟩ := Option.isSome_iff_exists.mp known
    cases v.names.lookup name <;> simp [ext.shortNames name c short]

/- Neither classes nor protocols of the manifest are named like a class that is there. -/
structure Apart (u : Universe) (m : Manifest) : Prop where
  classes : ∀ s ∈ m.classes, ∀ d ∈ u.classes.decls, d.name ≠ some s.qualifiedName
  protocols : ∀ p ∈ m.protocols, ∀ d ∈ u.classes.decls, d.name ≠ some p.name

theorem Extends.found (ext : u.Extends m v) (consistent : u.Consistent stubs) (apart : u.Apart m) {name : String}
    {c : ClassId} (found : u.class? name = some c) : v.class? name = some c := by
  unfold class? at found ⊢
  cases full : u.names.lookup name with
  | some d =>
    rw [full] at found
    rw [ext.names name d full]
    exact found
  | none =>
    rw [full] at found
    have short : u.shortNames.lookup name = some c := found
    have free : name ∉ m.classes.map ClassStub.qualifiedName := by
      intro taken
      obtain ⟨s, listed, rfl⟩ := List.mem_map.mp taken
      rw [consistent.indexed.shortNames, ClassStub.firstWithIff] at short
      obtain ⟨i, old, at', same, -, -⟩ := short
      refine apart.classes s listed old.decl ?_ (congrArg some same)
      rw [consistent.indexed.decls]
      exact List.mem_map_of_mem (List.mem_of_getElem? at')
    rw [ext.namesFree name full free]
    exact ext.shortNames name c short

theorem Extends.keeps (ext : u.Extends m v) (consistent : u.Consistent stubs) (apart : u.Apart m)
    (tuples : (u.class? tupleClassName).isSome) : u.Keeps v where
  classes _ _ found := ext.found consistent apart found
  aliases := ext.aliases
  tuples := by
    obtain ⟨c, found⟩ := Option.isSome_iff_exists.mp tuples
    rw [found, ext.found consistent apart found]

end GradualTypes.Universe
