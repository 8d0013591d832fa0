import GradualTypes.Proofs.Phases
import GradualTypes.Proofs.Representation

/-! Which manifests a universe accepts. The conditions speak of the manifest as a whole and of what its names
lead to when all its classes and aliases are there; in which order they are written does not count. What is
accepted has its bases recorded as they are written, and its aliases bound to what their bodies say. -/
namespace GradualTypes.Universe

variable {u : Universe} {stubs : List ClassStub} {m : Manifest}

/- What a name leads to with more classes declared after those of the universe: the class with that
qualified name, or else the first with that short name. -/
def classWith? (u : Universe) (more : List ClassStub) (name : String) : Option ClassId :=
  let added := fun text => (ClassStub.firstWith text more name).map (u.classes.size + ·)
  (u.names.lookup name).or ((added ClassStub.qualifiedName).or
    ((u.shortNames.lookup name).or (added ClassStub.name)))

/- A class of the manifest and a class that one of its bases leads to. -/
def BaseIn (u : Universe) (m : Manifest) (c b : ClassId) : Prop :=
  ∃ (i : Nat) (s : ClassStub), m.classes[i]? = some s ∧ c = u.classes.size + 1 + i ∧
    ∃ base ∈ s.bases, u.classWith? m.classes base = some b

def KnowsWith (u : Universe) (m : Manifest) : Mention → Prop
  | .ofClass name => (u.classWith? m.classes name).isSome
  | .ofAlias name => (u.alias? name).isSome ∨ name ∈ m.aliases.entries.map Prod.fst

structure Acceptable (u : Universe) (m : Manifest) : Prop where
  namesApart : (m.classes.map ClassStub.qualifiedName).Nodup
  namesFree : ∀ s ∈ m.classes, u.names.lookup s.qualifiedName = none
  basesFound : ∀ s ∈ m.classes, ∀ base ∈ s.bases, (u.classWith? m.classes base).isSome
  noCircle : NoCircle (u.BaseIn m)
  aliasesFree : ∀ a ∈ m.aliases.entries, u.alias? a.1 = none
  mentionsFound : ∀ a ∈ m.aliases.entries, ∀ n ∈ a.2.mentions, u.KnowsWith m n

/- `v` is the universe `u` with all of the manifest in it. -/
structure Contains (u : Universe) (m : Manifest) (v : Universe) : Prop where
  found : v.class? = u.classWith? m.classes
  bases : ∀ s ∈ m.classes, ∃ c bs, v.names.lookup s.qualifiedName = some c ∧
    List.Forall₂ (fun base b => u.classWith? m.classes base = some b) s.bases bs ∧
    -- In the order written, repetitions dropped.
    v.graph.bases c = bs.eraseDups
  aliases : ∀ a ∈ m.aliases.entries, ∃ r t, v.alias? a.1 = some r ∧ v.lower a.2 = .ok t ∧
    v.references.binding? r = some t

/- All stubs, the older ones first, are searched for the qualified name before the short one. -/
theorem classWithOf (consistent : u.Consistent stubs) (more : List ClassStub) (name : String) :
    u.classWith? more name = (ClassStub.firstWith ClassStub.qualifiedName (stubs ++ more) name).or
      (ClassStub.firstWith ClassStub.name (stubs ++ more) name) := by
  rw [ClassStub.firstWithAppend, ClassStub.firstWithAppend, classWith?, classCount consistent,
    consistent.indexed.names, consistent.indexed.shortNames, Option.or_assoc]

theorem declaredFinds (consistent : u.Consistent stubs) {more : List ClassStub}
    (done : (u.declareClasses more).2 = none) : (u.declareClasses more).1.class? = u.classWith? more := by
  obtain ⟨kept, all⟩ := declareClassesKeeps consistent more
  rw [all done] at kept
  funext name
  rw [classOf kept, classWithOf consistent]

theorem asksOfLinks (u : Universe) (m : Manifest) {w : Universe} (found : w.class? = u.classWith? m.classes)
    (c b : ClassId) : w.Asks (linksOf (u.classes.size + 1) m.classes) c b ↔ u.BaseIn m c b := by
  constructor
  · rintro ⟨l, member, rfl, leads⟩
    obtain ⟨i, s, at', base, listed, rfl⟩ := memLinksOf.mp member
    exact ⟨i, s, at', rfl, base, listed, found ▸ leads⟩
  · rintro ⟨i, s, at', rfl, base, listed, leads⟩
    exact ⟨_, memLinksOf.mpr ⟨i, s, at', base, listed, rfl⟩, rfl, found ▸ leads⟩

/- The bases go through exactly if all are found and those of the manifest alone have no circle: no older
class has a base among the new ones. -/
theorem linksAccepted (consistent : u.Consistent stubs) (m : Manifest) {w : Universe}
    (found : w.class? = u.classWith? m.classes) (graph : w.graph = u.graph) :
    (w.linkClasses (u.classes.size + 1) m.classes).2 = none ↔
      (∀ s ∈ m.classes, ∀ base ∈ s.bases, (u.classWith? m.classes base).isSome) ∧ NoCircle (u.BaseIn m) := by
  have size := classCount consistent
  rw [linkClassesAll, linkAllIff (graph ▸ consistent.guarded.acyclic), graph, found]
  simp only [asksOfLinks u m found]
  refine and_congr ⟨fun each s member base listed => ?_, fun each l member => ?_⟩ ⟨fun open' => ?_, fun open' => ?_⟩
  · obtain ⟨i, at'⟩ := List.mem_iff_getElem?.mp member
    exact each _ (memLinksOf.mpr ⟨i, s, at', base, listed, rfl⟩)
  · obtain ⟨i, s, at', base, listed, rfl⟩ := memLinksOf.mp member
    exact each s (List.mem_of_getElem? at') base listed
  · exact open'.anti fun c b base => .inr base
  · refine NoCircle.join consistent.guarded.within ?_ open' consistent.guarded.acyclic
    rintro c b ⟨i, s, -, rfl, -⟩ low
    have beyond : u.classes.size + 1 + i ≤ stubs.length := low.2
    omega

theorem mentionsAccepted (m : Manifest) {w : Universe} (found : w.class? = u.classWith? m.classes)
    (known : ∀ name, (w.alias? name).isSome ↔ (u.alias? name).isSome ∨ name ∈ m.aliases.entries.map Prod.fst) :
    (w.bindAliases m.aliases.entries).2 = none ↔
      ∀ a ∈ m.aliases.entries, ∀ n ∈ a.2.mentions, u.KnowsWith m n := by
  have same : ∀ n, w.knows n = true ↔ u.KnowsWith m n := by
    intro n
    cases n with
    | ofClass name => simp [knows, KnowsWith, found]
    | ofAlias name => exact known name
  simp only [bindAliasesIff, same]

theorem afterAliasesFinds (consistent : u.Consistent stubs) (done : (u.declareClasses m.classes).2 = none) :
    (u.afterAliases m).class? = u.classWith? m.classes := by
  rw [← declaredFinds consistent done, afterAliases, declareAliasesFrame class? (fun _ _ _ => rfl), afterProtocols,
    registerProtocolsFrame class? (fun _ _ => rfl), afterBasesFrame class? (fun _ _ => rfl)]
  rfl

theorem acceptableIff (consistent : u.Consistent stubs) (m : Manifest) :
    (u.install m).2 = none ↔ u.Acceptable m := by
  have graph : (u.afterClasses m).graph = u.graph := declareClassesFrame graph (fun _ _ _ _ => rfl) u m.classes
  have known : ∀ name, u.names.lookup name = none ↔ name ∉ stubs.map ClassStub.qualifiedName := by
    intro name
    rw [consistent.indexed.names, ClassStub.firstWithNone]
  have finds := @declaredFinds u stubs consistent m.classes
  have links := fun done => linksAccepted consistent m (finds done) graph
  have names := fun done => mentionsAccepted m (afterAliasesFinds consistent (m := m) done)
  have knows : ((u.afterProtocols m).declareAliases m.aliases.entries).2 = none → ∀ name,
      ((u.afterAliases m).alias? name).isSome ↔ (u.alias? name).isSome ∨ name ∈ m.aliases.entries.map Prod.fst := by
    intro done name
    rw [← afterProtocolsAliases u m]
    exact declareAliasesKnown done name
  rw [installIff, declareAliasesIff m.aliases.distinct, afterProtocolsAliases]
  constructor
  · rintro ⟨classes, bases, aliases, bodies⟩
    obtain ⟨apart, free⟩ := (declareClassesIff consistent m.classes).mp classes
    obtain ⟨found, open'⟩ := (links classes).mp bases
    have declared := (declareAliasesIff m.aliases.distinct).mpr (afterProtocolsAliases u m ▸ aliases)
    exact ⟨apart, fun s member => (known _).mpr (free s member), found, open', aliases,
      (names classes (knows declared)).mp bodies⟩
  · intro ok
    have classes := (declareClassesIff consistent m.classes).mpr
      ⟨ok.namesApart, fun s member => (known _).mp (ok.namesFree s member)⟩
    have declared := (declareAliasesIff m.aliases.distinct).mpr (afterProtocolsAliases u m ▸ ok.aliasesFree)
    exact ⟨classes, (links classes).mpr ⟨ok.basesFound, ok.noCircle⟩, ok.aliasesFree,
      (names classes (knows declared)).mpr ok.mentionsFound⟩

theorem eachFound {α β : Type} {f : α → Option β} {l : List α} (found : ∀ a ∈ l, (f a).isSome) :
    List.Forall₂ (fun a b => f a = some b) l (l.filterMap f) := by
  induction l with
  | nil => exact .nil
  | cons a rest ih =>
    obtain ⟨first, later⟩ := List.forall_mem_cons.mp found
    obtain ⟨b, leads⟩ := Option.isSome_iff_exists.mp first
    rw [List.filterMap_cons, leads]
    exact .cons leads (ih later)

/- The bases of the classes of an accepted manifest. -/
theorem basesRecorded (consistent : u.Consistent stubs) (done : (u.install m).2 = none) {i : Nat} {s : ClassStub}
    (at' : m.classes[i]? = some s) : (u.install m).1.graph.bases (u.classes.size + 1 + i) =
      (s.bases.filterMap (u.classWith? m.classes)).eraseDups := by
  obtain ⟨classes, bases, -, -⟩ := (installIff u m).mp done
  have size := classCount consistent
  have unlinked : u.graph.bases (u.classes.size + 1 + i) = [] := by
    rw [List.eq_nil_iff_forall_not_mem]
    intro b base
    have inside : u.classes.size + 1 + i ≤ stubs.length := (consistent.guarded.within _ b base).1.2
    omega
  have old : (u.afterClasses m).graph = u.graph := declareClassesFrame graph (fun _ _ _ _ => rfl) u m.classes
  have last : (u.install m).1.graph = (u.afterBases m).graph := by
    rw [installLast done, bindAliasesFrame graph (fun _ _ => rfl), afterAliases,
      declareAliasesFrame graph (fun _ _ _ => rfl), afterProtocols, registerProtocolsFrame graph (fun _ _ => rfl)]
  rw [linkClassesAll] at bases
  rw [last, afterBases, linkClassesAll, linkAllBases bases, old, unlinked, linksOfChild at',
    InheritanceGraph.addNewEmpty, List.filterMap_map, ← declaredFinds consistent classes]
  rfl

theorem installedConsistent (consistent : u.Consistent stubs) (done : (u.install m).2 = none) :
    (u.install m).1.Consistent (stubs ++ m.classes) := by
  have kept := installKeeps consistent m
  rwa [(declareClassesKeeps consistent m.classes).2 ((installIff u m).mp done).1] at kept

theorem containsAll (consistent : u.Consistent stubs) (done : (u.install m).2 = none) :
    u.Contains m (u.install m).1 := by
  have ok := (acceptableIff consistent m).mp done
  obtain ⟨classes, -, aliases, bodies⟩ := (installIff u m).mp done
  have kept := installedConsistent consistent done
  have size := classCount consistent
  have sameClass : (u.install m).1.class? = (u.afterAliases m).class? := by
    rw [installLast done, bindAliasesFrame class? (fun _ _ => rfl)]
  have sameAlias : (u.install m).1.alias? = (u.afterAliases m).alias? := by
    rw [installLast done, bindAliasesFrame alias? (fun _ _ => rfl)]
  refine ⟨sameClass.trans (afterAliasesFinds consistent classes), fun s member => ?_, fun a member => ?_⟩
  · obtain ⟨i, at'⟩ := List.mem_iff_getElem?.mp member
    refine ⟨_, _, ?_, eachFound (ok.basesFound s member), basesRecorded consistent done at'⟩
    refine (indexIff kept _ _).mpr ⟨stubs.length + i, s, ?_, rfl, by rw [size, Nat.add_right_comm]⟩
    rw [List.getElem?_append_right (Nat.le_add_right _ _), Nat.add_sub_cancel_left, at']
  · have declared : ((u.afterAliases m).alias? a.1).isSome :=
      (declareAliasesKnown aliases a.1).mpr (.inr (List.mem_map_of_mem member))
    obtain ⟨r, named⟩ := Option.isSome_iff_exists.mp declared
    obtain ⟨t, lowers, bound⟩ := bindAliasesBinds (sameAlias ▸ kept.tied.distinct) m.aliases.distinct bodies
      a member r named
    have keeps : (u.afterAliases m).Keeps (u.install m).1 :=
      ⟨fun _ _ h => sameClass ▸ h, fun _ _ h => sameAlias ▸ h, by rw [sameClass]⟩
    exact ⟨r, t, sameAlias ▸ named, lowerKept keeps a.2 lowers, installLast done ▸ bound⟩

/-- A manifest is installed as a whole exactly if it is acceptable, and its bases and aliases are then as
they are written. -/
theorem installAccepts (reached : u.Reached) (m : Manifest) :
    ((u.install m).2 = none ↔ u.Acceptable m) ∧
      ((u.install m).2 = none → u.Contains m (u.install m).1) := by
  obtain ⟨stubs, consistent⟩ := reachedConsistent reached
  exact ⟨acceptableIff consistent m, containsAll consistent⟩

/- A truck is a car, which is declared after it and named in two ways; loads and parts hold each other. -/
def fleet : Manifest :=
  ⟨[⟨"Truck", some "shop", ["shop.Car", "Car", "object"], []⟩, ⟨"Car", some "shop", ["builtins.object"], ["drive"]⟩],
    [], ⟨[("Load", .union [.aliased "Part", .named "Truck"]), ("Part", .collection "list" (.aliased "Load"))],
      by decide⟩⟩

/- Three classes, each a base of the one before. -/
def ring : Manifest :=
  ⟨[⟨"One", none, ["object", "Two"], []⟩, ⟨"Two", none, ["Three"], []⟩, ⟨"Three", none, ["One"], []⟩], [], .empty⟩

theorem fleetAccepted :
    withBuiltins.Acceptable fleet ∧ withBuiltins.Contains fleet (withBuiltins.install fleet).1 ∧
      ¬ withBuiltins.Acceptable ring := by
  have accepted : (withBuiltins.install fleet).2 = none := by decide +kernel
  have refused : (withBuiltins.install ring).2 ≠ none := by decide +kernel
  obtain ⟨fits, whole⟩ := installAccepts builtinsReached fleet
  exact ⟨fits.mp accepted, whole accepted, fun ok => refused ((installAccepts builtinsReached ring).1.mpr ok)⟩

end GradualTypes.Universe
