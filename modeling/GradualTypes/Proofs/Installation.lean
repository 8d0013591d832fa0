import GradualTypes.Proofs.Ancestry
import GradualTypes.Proofs.Lowering

/-! Runs of installations. Whatever stops a manifest, the classes, bases and aliases installed before the
fault fit together: this is one invariant, stated store by store, which every part of an installation keeps
and which therefore holds at every stopping point and under any later manifest. The classes are those of
the stubs that were accepted, in their order. -/
namespace GradualTypes

namespace ClassStub

def decl (s : ClassStub) : ClassDecl := ⟨some s.name, s.scope, s.members⟩

/- The stubs that are declared after the known ones: all before the first whose qualified name is taken. -/
def accepted (known : List ClassStub) : List ClassStub → List ClassStub
  | [] => []
  | s :: rest =>
    if s.qualifiedName ∈ known.map qualifiedName then [] else s :: accepted (known ++ [s]) rest

/- The id of the first stub with a certain text. -/
def firstWith (text : ClassStub → String) (stubs : List ClassStub) (name : String) : Option ClassId :=
  (stubs.findIdx? (fun s => text s == name)).map (· + 1)

variable {text : ClassStub → String} {stubs : List ClassStub} {name : String}

theorem firstWithAdded (s : ClassStub) : firstWith text (stubs ++ [s]) name =
    (firstWith text stubs name).or (if name = text s then some (stubs.length + 1) else none) := by
  unfold firstWith
  rw [List.findIdx?_append]
  cases stubs.findIdx? (fun s => text s == name) with
  | some i => simp
  | none =>
    by_cases same : name = text s
    · simp [same]
    · have other : text s ≠ name := fun h => same h.symm
      simp [same, other]

theorem firstWithIff {c : ClassId} : firstWith text stubs name = some c ↔
    ∃ (i : Nat) (s : ClassStub), stubs[i]? = some s ∧ text s = name ∧ c = i + 1 ∧
      ∀ (j : Nat) (s' : ClassStub), stubs[j]? = some s' → text s' = name → i ≤ j := by
  unfold firstWith
  simp only [Option.map_eq_some_iff, List.findIdx?_eq_some_iff_getElem]
  constructor
  · rintro ⟨i, ⟨inside, hit, least⟩, rfl⟩
    refine ⟨i, stubs[i], List.getElem?_eq_getElem inside, by simpa using hit, rfl, fun j s' at' same => ?_⟩
    obtain ⟨within, rfl⟩ := List.getElem?_eq_some_iff.mp at'
    by_contra before
    exact least j (by omega) (by simpa using same)
  · rintro ⟨i, s, at', same, rfl, least⟩
    obtain ⟨inside, rfl⟩ := List.getElem?_eq_some_iff.mp at'
    refine ⟨i, ⟨inside, by simpa using same, fun j before hit => ?_⟩, rfl⟩
    have := least j stubs[j] (List.getElem?_eq_getElem (by omega)) (by simpa using hit)
    omega

/- Where no two stubs have one text, the first with it is the only one. -/
theorem onlyWithIff (apart : (stubs.map text).Nodup) {c : ClassId} : firstWith text stubs name = some c ↔
    ∃ (i : Nat) (s : ClassStub), stubs[i]? = some s ∧ text s = name ∧ c = i + 1 := by
  rw [firstWithIff]
  constructor
  · rintro ⟨i, s, at', same, id, -⟩
    exact ⟨i, s, at', same, id⟩
  · rintro ⟨i, s, at', same, id⟩
    refine ⟨i, s, at', same, id, fun j s' there same' => Nat.le_of_eq ?_⟩
    obtain ⟨inside, -⟩ := List.getElem?_eq_some_iff.mp at'
    apply (List.getElem?_inj (by simpa using inside) apart).mp
    simp [at', there, same, same']

theorem firstWithNone : firstWith text stubs name = none ↔ name ∉ stubs.map text := by
  simp only [firstWith, Option.map_eq_none_iff, List.findIdx?_eq_none_iff, List.mem_map, beq_eq_false_iff_ne]
  grind

end ClassStub

/- One of the first `n` class ids. -/
def ClassId.IsAmong (c : ClassId) (n : Nat) : Prop := 1 ≤ c ∧ c ≤ n

theorem ClassId.IsAmong.mono {c : ClassId} {n m : Nat} (among : c.IsAmong n) (more : n ≤ m) : c.IsAmong m :=
  ⟨among.1, Nat.le_trans among.2 more⟩

/- The class table and both indexes of names are those of a list of stubs with different qualified names. -/
structure Indexed (classes : ClassTable) (names shortNames : List (String × ClassId))
    (stubs : List ClassStub) : Prop where
  decls : classes.decls = stubs.map ClassStub.decl
  distinct : (stubs.map ClassStub.qualifiedName).Nodup
  names : ∀ name, names.lookup name = ClassStub.firstWith ClassStub.qualifiedName stubs name
  shortNames : ∀ name, shortNames.lookup name = ClassStub.firstWith ClassStub.name stubs name

theorem Indexed.add {classes : ClassTable} {names shortNames : List (String × ClassId)} {stubs : List ClassStub}
    (indexed : Indexed classes names shortNames stubs) {s : ClassStub}
    (fresh : s.qualifiedName ∉ stubs.map ClassStub.qualifiedName) :
    Indexed (classes.declare s.decl).2 (names ++ [(s.qualifiedName, (classes.declare s.decl).1)])
      (if (shortNames.lookup s.name).isSome then shortNames
        else shortNames ++ [(s.name, (classes.declare s.decl).1)]) (stubs ++ [s]) := by
  have size : (classes.declare s.decl).1 = stubs.length + 1 := by simp [ClassTable.declare, indexed.decls]
  rw [size]
  refine ⟨?_, ?_, ?_, ?_⟩
  · simp [ClassTable.declare, indexed.decls]
  · rw [List.map_append, List.nodup_append]
    refine ⟨indexed.distinct, by simp, ?_⟩
    rintro a known b last rfl
    exact fresh (List.mem_singleton.mp last ▸ known)
  · intro name
    rw [lookupAdded, indexed.names, ClassStub.firstWithAdded]
  · intro name
    rw [ClassStub.firstWithAdded, ← indexed.shortNames]
    split
    · rename_i known
      obtain ⟨c, known⟩ := Option.isSome_iff_exists.mp known
      by_cases same : name = s.name
      · simp [same, known]
      · simp [same]
    · rw [lookupAdded]

/- Bases lead from one of the first `n` classes to another, none twice and none in a circle. -/
structure Guarded (graph : InheritanceGraph) (n : Nat) : Prop where
  within : ∀ c b, graph.HasBase c b → c.IsAmong n ∧ b.IsAmong n
  once : ∀ c, (graph.bases c).Nodup
  acyclic : graph.Acyclic

theorem Guarded.mono {graph : InheritanceGraph} {n m : Nat} (guarded : Guarded graph n) (more : n ≤ m) :
    Guarded graph m :=
  ⟨fun c b base => (guarded.within c b base).imp (·.mono more) (·.mono more), guarded.once, guarded.acyclic⟩

theorem Guarded.inherit {graph : InheritanceGraph} {n : Nat} (guarded : Guarded graph n)
    {child parent : ClassId} (below : child.IsAmong n) (above : parent.IsAmong n)
    (safe : graph.wouldCycle child parent = false) : Guarded (graph.inherit child [parent]) n where
  within c b base := by
    rcases InheritanceGraph.hasBaseInherit.mp base with old | ⟨rfl, rfl⟩
    · exact guarded.within c b old
    · exact ⟨below, above⟩
  once c := by
    rw [InheritanceGraph.basesInherit]
    split
    · exact InheritanceGraph.nodupAddNew (guarded.once child)
    · exact guarded.once c
  acyclic := InheritanceGraph.inheritAcyclic guarded.acyclic safe

theorem ReferenceTable.bindingBind (t : ReferenceTable) (r q : RefId) (target : Ty) :
    (t.bind r target).binding? q = if q = r then some target else t.binding? q :=
  lookupReplaced t.bindings r q target

def IsAlias (aliases : List (String × RefId)) (r : RefId) : Prop := ∃ name, aliases.lookup name = some r

/- Aliases have references of their own, and what is bound is an alias whose body names only what is there. -/
structure Tied (aliases : List (String × RefId)) (references : ReferenceTable) (n : Nat) : Prop where
  distinct : ∀ a b r, aliases.lookup a = some r → aliases.lookup b = some r → a = b
  allotted : ∀ a r, aliases.lookup a = some r → r ≤ references.declared
  bound : ∀ r target, references.binding? r = some target → IsAlias aliases r
  fits : ∀ r target (p : Ty), references.binding? r = some target → p.Part target →
    p.Fits (·.IsAmong n) (IsAlias aliases)

section
variable {aliases : List (String × RefId)} {references : ReferenceTable} {n m : Nat} {name : String}

theorem Tied.mono (tied : Tied aliases references n) (more : n ≤ m) : Tied aliases references m :=
  ⟨tied.distinct, tied.allotted, tied.bound, fun r target p bound part =>
    (tied.fits r target p bound part).imp (fun _ among => among.mono more) (fun _ named => named)⟩

theorem Tied.declare (tied : Tied aliases references n) (fresh : aliases.lookup name = none) :
    Tied (aliases ++ [(name, references.declare.1)]) references.declare.2 n := by
  have unused : ∀ a, aliases.lookup a ≠ some references.declare.1 :=
    fun a named => Nat.not_succ_le_self _ (tied.allotted a _ named)
  have kept : ∀ r, IsAlias aliases r → IsAlias (aliases ++ [(name, references.declare.1)]) r :=
    fun r ⟨a, named⟩ => ⟨a, (lookupFresh fresh).mpr (.inl named)⟩
  refine ⟨?_, ?_, ?_, ?_⟩
  · intro a b r first second
    rcases (lookupFresh fresh).mp first with old | ⟨rfl, rfl⟩
    · rcases (lookupFresh fresh).mp second with old' | ⟨-, rfl⟩
      · exact tied.distinct a b r old old'
      · exact absurd old (unused a)
    · rcases (lookupFresh fresh).mp second with old' | ⟨rfl, -⟩
      · exact absurd old' (unused b)
      · rfl
  · intro a r named
    rcases (lookupFresh fresh).mp named with old | ⟨-, rfl⟩
    · exact Nat.le_succ_of_le (tied.allotted a r old)
    · exact Nat.le_refl _
  · intro r target bound
    exact kept r (tied.bound r target bound)
  · intro r target p bound part
    exact (tied.fits r target p bound part).imp (fun _ among => among) kept

theorem Tied.bind (tied : Tied aliases references n) {r : RefId} {target : Ty}
    (named : aliases.lookup name = some r)
    (fits : ∀ p : Ty, p.Part target → p.Fits (·.IsAmong n) (IsAlias aliases)) :
    Tied aliases (references.bind r target) n := by
  refine ⟨tied.distinct, tied.allotted, ?_, ?_⟩
  · intro q found bound
    rw [ReferenceTable.bindingBind] at bound
    split at bound
    · rename_i same
      exact ⟨name, same ▸ named⟩
    · exact tied.bound q found bound
  · intro q found p bound part
    rw [ReferenceTable.bindingBind] at bound
    split at bound
    · cases bound
      exact fits p part
    · exact tied.fits q found p bound part

end

namespace Universe

/- The invariant of a universe in which exactly these stubs were declared, in their order. -/
structure Consistent (u : Universe) (stubs : List ClassStub) : Prop where
  indexed : Indexed u.classes u.names u.shortNames stubs
  guarded : Guarded u.graph stubs.length
  tied : Tied u.aliases u.references stubs.length

variable {u : Universe} {stubs : List ClassStub}

theorem emptyConsistent : empty.Consistent [] where
  indexed := ⟨rfl, by simp, by simp [empty, ClassStub.firstWith], by simp [empty, ClassStub.firstWith]⟩
  guarded := by
    have none : ∀ c b, ¬ empty.graph.HasBase c b := by
      simp [empty, InheritanceGraph.HasBase, InheritanceGraph.bases, InheritanceGraph.empty]
    refine ⟨fun c b base => absurd base (none c b), ?_, fun c loop => ?_⟩
    · simp [empty, InheritanceGraph.bases, InheritanceGraph.empty]
    · obtain ⟨b, base, -⟩ := Relation.TransGen.head'_iff.mp loop
      exact none c b base
  tied := by
    constructor <;> simp [empty, ReferenceTable.binding?, ReferenceTable.empty]

/- What holds after a part, and after the next one where the part was not stopped, holds in the end. -/
theorem andThenEnds (P : Universe → Prop) {part : Installed} {next : Universe → Installed} (first : P part.1)
    (later : part.2 = none → P (next part.1).1) : P (andThen part next).1 := by
  obtain ⟨u, _ | e⟩ := part
  · exact later rfl
  · exact first

/- What is kept by a part and by all that may follow is kept by both together. -/
theorem andThenKeeps {part : Installed} {next : Universe → Installed} (first : part.1.Consistent stubs)
    (second : ∀ u, u.Consistent stubs → (next u).1.Consistent stubs) :
    (andThen part next).1.Consistent stubs :=
  andThenEnds (·.Consistent stubs) first fun _ => second _ first

theorem andThenDone {part : Installed} {next : Universe → Installed} (done : part.2 = none) :
    andThen part next = next part.1 := by
  obtain ⟨u, stop⟩ := part
  subst done
  rfl

theorem classCount (consistent : u.Consistent stubs) : u.classes.size = stubs.length := by
  simp [ClassTable.size, consistent.indexed.decls]

theorem classAmong (consistent : u.Consistent stubs) {name : String} {c : ClassId}
    (found : u.class? name = some c) : c.IsAmong stubs.length := by
  have first : ∃ text : ClassStub → String, ClassStub.firstWith text stubs name = some c := by
    unfold class? at found
    split at found
    · rename_i d known
      cases found
      exact ⟨_, consistent.indexed.names name ▸ known⟩
    · exact ⟨_, consistent.indexed.shortNames name ▸ found⟩
  obtain ⟨text, first⟩ := first
  obtain ⟨i, s, at', -, rfl, -⟩ := ClassStub.firstWithIff.mp first
  obtain ⟨inside, -⟩ := List.getElem?_eq_some_iff.mp at'
  exact ⟨Nat.le_add_left 1 i, inside⟩

theorem declareClassTaken (consistent : u.Consistent stubs) {s : ClassStub}
    (taken : s.qualifiedName ∈ stubs.map ClassStub.qualifiedName) :
    u.declareClass s = (u, some (.duplicateClass s.qualifiedName)) := by
  have known : u.names.lookup s.qualifiedName ≠ none := by
    rw [consistent.indexed.names]
    exact fun missing => ClassStub.firstWithNone.mp missing taken
  unfold declareClass
  split
  · rfl
  · rename_i missing
    exact absurd missing known

theorem declareClassFresh (consistent : u.Consistent stubs) {s : ClassStub}
    (fresh : s.qualifiedName ∉ stubs.map ClassStub.qualifiedName) :
    (u.declareClass s).2 = none ∧ (u.declareClass s).1.Consistent (stubs ++ [s]) := by
  have missing : u.names.lookup s.qualifiedName = none := by
    rw [consistent.indexed.names]
    exact ClassStub.firstWithNone.mpr fresh
  have more : stubs.length ≤ (stubs ++ [s]).length := by simp
  simp only [declareClass, missing]
  exact ⟨trivial, consistent.indexed.add fresh, consistent.guarded.mono more, consistent.tied.mono more⟩

theorem declareClassesKeeps (consistent : u.Consistent stubs) (more : List ClassStub) :
    (u.declareClasses more).1.Consistent (stubs ++ ClassStub.accepted stubs more) ∧
      ((u.declareClasses more).2 = none → ClassStub.accepted stubs more = more) := by
  induction more generalizing u stubs with
  | nil => simpa [declareClasses, ClassStub.accepted] using consistent
  | cons s rest ih =>
    by_cases taken : s.qualifiedName ∈ stubs.map ClassStub.qualifiedName
    · simpa [declareClasses, declareClassTaken consistent taken, andThen, ClassStub.accepted, taken]
        using consistent
    · obtain ⟨done, kept⟩ := declareClassFresh consistent taken
      obtain ⟨after, all⟩ := ih kept
      rw [declareClasses, andThenDone done, ClassStub.accepted, if_neg taken]
      refine ⟨by simpa using after, fun ok => ?_⟩
      rw [all ok]

theorem linkBaseKeeps (consistent : u.Consistent stubs) {child : ClassId} (among : child.IsAmong stubs.length)
    (qualified base : String) : (u.linkBase child qualified base).1.Consistent stubs := by
  unfold linkBase
  split
  · exact consistent
  · rename_i b found
    split
    · exact consistent
    · rename_i safe
      exact ⟨consistent.indexed,
        consistent.guarded.inherit among (classAmong consistent found) (by simpa using safe),
        consistent.tied⟩

theorem linkBasesKeeps (consistent : u.Consistent stubs) {child : ClassId} (among : child.IsAmong stubs.length)
    (qualified : String) (bases : List String) :
    (u.linkBases child qualified bases).1.Consistent stubs := by
  induction bases generalizing u with
  | nil => exact consistent
  | cons base rest ih => exact andThenKeeps (linkBaseKeeps consistent among qualified base) (fun _ kept => ih kept)

theorem linkClassesKeeps (consistent : u.Consistent stubs) {child : Nat} (classes : List ClassStub)
    (valid : 1 ≤ child) (declared : child + classes.length ≤ stubs.length + 1) :
    (u.linkClasses child classes).1.Consistent stubs := by
  induction classes generalizing u child with
  | nil => exact consistent
  | cons s rest ih =>
    rw [List.length_cons] at declared
    have inside : child ≤ stubs.length := by omega
    exact andThenKeeps (linkBasesKeeps consistent ⟨valid, inside⟩ s.qualifiedName s.bases)
      (fun _ kept => ih kept (by omega) (by omega))

theorem registerProtocolsKeeps (consistent : u.Consistent stubs) (protocols : List ProtocolStub) :
    (u.registerProtocols protocols).Consistent stubs := by
  induction protocols generalizing u with
  | nil => exact consistent
  | cons p rest ih => exact ih ⟨consistent.indexed, consistent.guarded, consistent.tied⟩

theorem declareAliasKeeps (consistent : u.Consistent stubs) (name : String) :
    (u.declareAlias name).1.Consistent stubs := by
  unfold declareAlias
  split
  · exact consistent
  · rename_i fresh
    exact ⟨consistent.indexed, consistent.guarded, consistent.tied.declare fresh⟩

theorem declareAliasesKeeps (consistent : u.Consistent stubs) (entries : List (String × TypeExpr)) :
    (u.declareAliases entries).1.Consistent stubs := by
  induction entries generalizing u with
  | nil => exact consistent
  | cons a rest ih => exact andThenKeeps (declareAliasKeeps consistent a.1) (fun _ kept => ih kept)

theorem bindAliasKeeps (consistent : u.Consistent stubs) (name : String) (body : TypeExpr) :
    (u.bindAlias name body).1.Consistent stubs := by
  unfold bindAlias
  split
  · exact consistent
  · rename_i target lowers
    split
    · exact consistent
    · rename_i r named
      refine ⟨consistent.indexed, consistent.guarded, consistent.tied.bind named fun p part => ?_⟩
      exact lowerParts (fun _ _ => classAmong consistent) (fun a r is => ⟨a, is⟩) body lowers part

theorem bindAliasesKeeps (consistent : u.Consistent stubs) (entries : List (String × TypeExpr)) :
    (u.bindAliases entries).1.Consistent stubs := by
  induction entries generalizing u with
  | nil => exact consistent
  | cons a rest ih => exact andThenKeeps (bindAliasKeeps consistent a.1 a.2) (fun _ kept => ih kept)

/- An installation keeps the invariant, whether it ends well or is stopped. -/
theorem installKeeps (consistent : u.Consistent stubs) (m : Manifest) :
    (u.install m).1.Consistent (stubs ++ ClassStub.accepted stubs m.classes) := by
  obtain ⟨classes, all⟩ := declareClassesKeeps consistent m.classes
  have size := classCount consistent
  unfold install
  cases part : u.declareClasses m.classes with
  | mk v stop =>
    rw [part] at classes all
    cases stop with
    | some e => exact classes
    | none =>
      have room : u.classes.size + 1 + m.classes.length ≤
          (stubs ++ ClassStub.accepted stubs m.classes).length + 1 := by
        rw [all rfl, List.length_append, size]
        omega
      rw [andThenDone rfl]
      refine andThenKeeps (linkClassesKeeps classes m.classes (Nat.le_add_left 1 _) room) fun v kept => ?_
      refine andThenKeeps (declareAliasesKeeps (registerProtocolsKeeps kept m.protocols) _) fun v kept => ?_
      exact bindAliasesKeeps kept _

/- The universe after manifests were installed in turn, each as far as it goes. -/
def run (u : Universe) (manifests : List Manifest) : Universe :=
  manifests.foldl (fun u m => (u.install m).1) u

/- The stubs declared in the end. -/
def declared (stubs : List ClassStub) (manifests : List Manifest) : List ClassStub :=
  manifests.foldl (fun stubs m => stubs ++ ClassStub.accepted stubs m.classes) stubs

theorem runKeeps (consistent : u.Consistent stubs) (manifests : List Manifest) :
    (u.run manifests).Consistent (declared stubs manifests) := by
  induction manifests generalizing u stubs with
  | nil => exact consistent
  | cons m rest ih => exact ih (installKeeps consistent m)

/- A universe that was empty once and had manifests installed on it, each as far as it went. -/
inductive Reached : Universe → Prop where
  | start : Reached empty
  | install {u : Universe} (before : Reached u) (m : Manifest) : Reached (u.install m).1

theorem builtinsReached : withBuiltins.Reached := .install .start .builtins

theorem reachedConsistent (reached : u.Reached) : ∃ stubs, u.Consistent stubs := by
  induction reached with
  | start => exact ⟨[], emptyConsistent⟩
  | install before m ih =>
    obtain ⟨stubs, consistent⟩ := ih
    exact ⟨_, installKeeps consistent m⟩

end Universe
end GradualTypes
