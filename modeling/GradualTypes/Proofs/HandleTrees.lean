import GradualTypes.Proofs.NodeRequests
import GradualTypes.Proofs.UnionMembers
import Mathlib.Logic.Relation

/-! Handles stand for trees. The slots of a call are unknown, the overflow handle or handles that earlier calls
gave, so that every node is made after its parts. From call to call the trees of all handles stay as they
are, and two handles with one tree are one handle. -/
namespace GradualTypes

namespace Request

/- The tree that a call stands for, given the trees of its slots. -/
def tree (part : Slot → Ty) : Request → Ty
  | .reference r => .reference r
  | .nominal c => .nominal c
  | .collection c element => .collection c (part element)
  | .tuple c elements => .tuple c (elements.map part)
  | .union members => .unionOf (members.map part)

theorem treeCongr {r : Request} {f g : Slot → Ty} (same : ∀ s ∈ r.slots, f s = g s) :
    r.tree f = r.tree g := by
  cases r with
  | reference r => rfl
  | nominal c => rfl
  | collection c element => rw [tree, tree, same element (by simp [slots])]
  | tuple c elements => exact congrArg (Ty.tuple c) (List.map_congr_left same)
  | union members => exact congrArg Ty.unionOf (List.map_congr_left same)

theorem settledTree (r : Request) (part : Slot → Ty) : r.settled.tree part = r.tree part := by
  cases r with
  | union members => exact Ty.unionOfCongr (fun t => by simp [List.mem_map])
  | _ => rfl

theorem settledSlots {r : Request} {s : Slot} : s ∈ r.settled.slots ↔ s ∈ r.slots := by
  cases r with
  | union members => exact Slot.memCanonical
  | _ => rfl

theorem treeUnknown (r : Request) (part : Slot → Ty) : r.tree part ≠ .unknown := by
  cases r with
  | union members => exact Ty.unionOfUnknown
  | _ => simp [tree]

/- What a call has to be that no other call is written for. -/
structure Plain (r : Request) : Prop where
  settled : r.settled = r
  several : r.single? = none

/- Trees that tell the slots of some calls apart. -/
structure Apart (P : Slot → Prop) (part : Slot → Ty) : Prop where
  unknown : part none = .unknown
  distinct : ∀ s u, P s → P u → part s = part u → s = u

section
variable {P : Slot → Prop} {part : Slot → Ty}

/- A union of several types does not collapse when its members become trees. -/
theorem unionTree (apart : Apart P part) {members : List Slot} (inside : ∀ s ∈ members, P s)
    (plain : (union members).Plain) :
    (union members).tree part = .union (Ty.canonical (members.map part)) := by
  rcases Ty.unionOfCases (members.map part) with node | ⟨only, single, known, -⟩
  · exact node
  · exfalso
    have each : ∀ s ∈ members, part s = only := by
      intro s member
      have there : part s ∈ Ty.canonical (members.map part) := Ty.memCanonical.mpr (List.mem_map_of_mem member)
      simpa [single] using there
    have order : Slot.canonical members = members := Request.union.inj plain.settled
    have sorted := Slot.canonicalSorted members
    rw [order] at sorted
    cases members with
    | nil => simp [Ty.canonical] at single
    | cons s rest =>
      cases rest with
      | nil =>
        cases s with
        | none => exact known ((each none (by simp)).symm.trans apart.unknown)
        | some h =>
          have several := plain.several
          simp [single?, order] at several
      | cons u rest =>
        have same := apart.distinct s u (inside s (by simp)) (inside u (by simp))
          ((each s (by simp)).trans (each u (by simp)).symm)
        have less := (List.pairwise_cons.mp sorted).1 u (by simp)
        rw [same] at less
        exact Nat.lt_irrefl _ less

theorem mapDistinct (apart : Apart P part) {ss : List Slot} : ∀ {us : List Slot}, (∀ s ∈ ss, P s) →
    (∀ u ∈ us, P u) → ss.map part = us.map part → ss = us := by
  induction ss with
  | nil => intro us _ _ same; exact (List.map_eq_nil_iff.mp same.symm).symm
  | cons s rest ih =>
    intro us left right same
    cases us with
    | nil => cases same
    | cons u others =>
      obtain ⟨head, tail⟩ := List.cons.inj same
      rw [apart.distinct s u (left s (by simp)) (right u (by simp)) head,
        ih (fun s member => left s (by simp [member])) (fun u member => right u (by simp [member])) tail]

theorem memberDistinct (apart : Apart P part) {ss us : List Slot} (left : ∀ s ∈ ss, P s) (right : ∀ u ∈ us, P u)
    (same : Ty.canonical (ss.map part) = Ty.canonical (us.map part)) {s : Slot} (member : s ∈ ss) : s ∈ us := by
  have there : part s ∈ Ty.canonical (us.map part) := by
    rw [← same]
    exact Ty.memCanonical.mpr (List.mem_map_of_mem member)
  obtain ⟨u, inside, equal⟩ := List.mem_map.mp (Ty.memCanonical.mp there)
  rwa [← apart.distinct u s (right u inside) (left s member) equal]

/- The tree of a call when unions are not collapsed. -/
def fullTree (part : Slot → Ty) : Request → Ty
  | .union members => .union (Ty.canonical (members.map part))
  | r => r.tree part

theorem fullTreeSame (apart : Apart P part) {r : Request} (inside : ∀ s ∈ r.slots, P s) (plain : r.Plain) :
    r.tree part = r.fullTree part := by
  cases r with
  | union members => exact unionTree apart inside plain
  | _ => rfl

theorem treeDistinct (apart : Apart P part) {q r : Request} (left : ∀ s ∈ q.slots, P s)
    (right : ∀ s ∈ r.slots, P s) (qPlain : q.Plain) (rPlain : r.Plain) (same : q.tree part = r.tree part) :
    q = r := by
  rw [fullTreeSame apart left qPlain, fullTreeSame apart right rPlain] at same
  cases q <;> cases r <;> simp only [fullTree, tree, Ty.reference.injEq, Ty.nominal.injEq,
    Ty.collection.injEq, Ty.tuple.injEq, Ty.union.injEq, reduceCtorEq] at same
  case reference.reference => rw [same]
  case nominal.nominal => rw [same]
  case collection.collection =>
    have element := apart.distinct _ _ (left _ (by simp [slots])) (right _ (by simp [slots])) same.2
    exact congrArg₂ collection same.1 element
  case tuple.tuple => exact congrArg₂ tuple same.1 (mapDistinct apart left right same.2)
  case union.union ms us =>
    have equal : Slot.canonical ms = Slot.canonical us := Slot.canonicalCongr (fun s =>
      ⟨memberDistinct apart left right same, memberDistinct apart right left same.symm⟩)
    rw [← qPlain.settled, ← rPlain.settled, settled, settled, equal]

end

end Request

namespace TypeTable

theorem nodeTreeRead (t : TypeTable) (part : Slot → Ty) (n : Node) : t.nodeTree part n = (t.read n).tree part := by
  cases n <;> rfl

/- The tree of a slot is known: it is unknown, the overflow handle or the handle of a node. -/
def Stands (t : TypeTable) (s : Slot) : Prop :=
  s = none ∨ s = some .overflow ∨ ∃ h r, s = some h ∧ t.form h = some r

/- A table in which nodes are made after their parts, and of which no two handles have one tree. -/
structure Unfolds (t : TypeTable) : Prop where
  sound : t.Sound
  parts : ∀ h r, t.form h = some r → ∀ s ∈ r.slots, t.Stands s
  plain : ∀ h r, t.form h = some r → r.Plain
  enough : ∀ s d, t.Stands s → t.size ≤ d → t.treeWithin d s = t.tree s
  distinct : ∀ s u, t.Stands s → t.Stands u → t.tree s = t.tree u → s = u

theorem treeWithinNone (t : TypeTable) (d : Nat) : t.treeWithin d none = .unknown := by
  cases d <;> rfl

theorem treeWithinForm {t : TypeTable} {h : Handle} {r : Request} (found : t.form h = some r) (d : Nat) :
    t.treeWithin (d + 1) (some h) = r.tree (t.treeWithin d) := by
  obtain ⟨n, there, rfl⟩ := Option.map_eq_some_iff.mp found
  simp only [treeWithin, there, nodeTreeRead]

theorem Sound.formOverflow {t : TypeTable} (sound : t.Sound) : t.form .overflow = none := by
  rw [form, sound.kept.overflowFree, Option.map_none]

theorem Sound.treeOverflow {t : TypeTable} (sound : t.Sound) (d : Nat) :
    t.treeWithin d (some .overflow) = .missing := by
  cases d with
  | zero => rfl
  | succ d => simp only [treeWithin, sound.kept.overflowFree]

theorem Unfolds.treeForm {t : TypeTable} (unfolds : t.Unfolds) {h : Handle} {r : Request}
    (found : t.form h = some r) : t.tree (some h) = r.tree t.tree := by
  rw [← unfolds.enough (some h) (t.size + 1) (.inr (.inr ⟨h, r, rfl, found⟩)) (Nat.le_succ _)]
  exact treeWithinForm found t.size

theorem Unfolds.apart {t : TypeTable} (unfolds : t.Unfolds) : Request.Apart t.Stands t.tree :=
  ⟨treeWithinNone t _, unfolds.distinct⟩

section
variable {t : TypeTable} {r : Request} {made : Handle × TypeTable}

theorem Grows.formKept (grows : t.Grows r made) {h : Handle} {q : Request} (found : t.form h = some q) :
    made.2.form h = some q := by
  have other : h ≠ made.1 := by
    intro same
    rw [TypeTable.form, same, grows.free] at found
    cases found
  rw [grows.form, if_neg other, found]

theorem Grows.stands (grows : t.Grows r made) {s : Slot} (old : t.Stands s) : made.2.Stands s := by
  rcases old with unknown | overflow | ⟨h, q, rfl, found⟩
  · exact .inl unknown
  · exact .inr (.inl overflow)
  · exact .inr (.inr ⟨h, q, rfl, grows.formKept found⟩)

theorem Grows.standsCases (grows : t.Grows r made) {s : Slot} (stands : made.2.Stands s) :
    t.Stands s ∨ s = some made.1 := by
  rcases stands with unknown | overflow | ⟨h, q, rfl, found⟩
  · exact .inl (.inl unknown)
  · exact .inl (.inr (.inl overflow))
  · rw [grows.form] at found
    split at found
    · rename_i same
      exact .inr (by rw [same])
    · exact .inl (.inr (.inr ⟨h, q, rfl, found⟩))

/- Old slots keep their trees, to any depth. -/
theorem Grows.oldTree (grows : t.Grows r made) (unfolds : t.Unfolds) : ∀ (d : Nat) (s : Slot), t.Stands s →
    made.2.treeWithin d s = t.treeWithin d s := by
  intro d
  induction d with
  | zero => intro s _; cases s <;> rfl
  | succ d ih =>
    intro s old
    rcases old with rfl | rfl | ⟨h, q, rfl, found⟩
    · rfl
    · rw [grows.sound.treeOverflow, unfolds.sound.treeOverflow]
    · rw [treeWithinForm (grows.formKept found), treeWithinForm found]
      exact Request.treeCongr (fun s member => ih s (unfolds.parts h q found s member))

theorem Grows.newTree (grows : t.Grows r made) (unfolds : t.Unfolds) (inside : ∀ s ∈ r.slots, t.Stands s) {d : Nat}
    (deep : made.2.size ≤ d) : made.2.treeWithin d (some made.1) = r.tree t.tree := by
  have found : made.2.form made.1 = some r := by rw [grows.form, if_pos rfl]
  cases d with
  | zero =>
    have size := grows.size
    omega
  | succ d =>
    have below : t.size ≤ d := by
      have size := grows.size
      omega
    rw [treeWithinForm found]
    refine Request.treeCongr (fun s member => ?_)
    rw [grows.oldTree unfolds d s (inside s member), unfolds.enough s d (inside s member) below]

theorem Grows.keptTree (grows : t.Grows r made) (unfolds : t.Unfolds) {s : Slot} (old : t.Stands s) :
    made.2.tree s = t.tree s := by
  have size := grows.size
  rw [tree, grows.oldTree unfolds _ s old, unfolds.enough s _ old (by omega)]

/- The tree of the new handle is no old one. -/
theorem Grows.treeNew (grows : t.Grows r made) (unfolds : t.Unfolds) (inside : ∀ s ∈ r.slots, t.Stands s)
    (plain : r.Plain) {s : Slot} (old : t.Stands s) : t.tree s ≠ r.tree t.tree := by
  intro same
  rcases old with rfl | rfl | ⟨h, q, rfl, found⟩
  · exact r.treeUnknown t.tree (same.symm.trans (treeWithinNone t _))
  · have missing : r.tree t.tree = .missing := same.symm.trans (unfolds.sound.treeOverflow _)
    rw [Request.fullTreeSame unfolds.apart inside plain] at missing
    cases r <;> cases missing
  · rw [unfolds.treeForm found] at same
    have call := Request.treeDistinct unfolds.apart (unfolds.parts h q found) inside (unfolds.plain h q found)
      plain same
    exact grows.fresh h (call ▸ found)

theorem Grows.unfolds (grows : t.Grows r made) (unfolds : t.Unfolds) (inside : ∀ s ∈ r.slots, t.Stands s)
    (plain : r.Plain) : made.2.Unfolds := by
  have form : ∀ {h q}, made.2.form h = some q → q = r ∨ t.form h = some q := by
    intro h q found
    rw [grows.form] at found
    split at found
    · exact .inl (Option.some.inj found).symm
    · exact .inr found
  have newTree : made.2.tree (some made.1) = r.tree t.tree := grows.newTree unfolds inside (Nat.le_refl _)
  refine ⟨grows.sound, fun h q found s member => ?_, fun h q found => ?_, fun s d stands deep => ?_,
    fun s u left right same => ?_⟩
  · rcases form found with rfl | old
    · exact grows.stands (inside s member)
    · exact grows.stands (unfolds.parts h q old s member)
  · rcases form found with rfl | old
    · exact plain
    · exact unfolds.plain h q old
  · have size := grows.size
    rcases grows.standsCases stands with old | rfl
    · rw [grows.oldTree unfolds d s old, grows.keptTree unfolds old]
      exact unfolds.enough s d old (by omega)
    · rw [newTree]
      exact grows.newTree unfolds inside deep
  · rcases grows.standsCases left with old | rfl
    · rw [grows.keptTree unfolds old] at same
      rcases grows.standsCases right with old' | rfl
      · rw [grows.keptTree unfolds old'] at same
        exact unfolds.distinct s u old old' same
      · rw [newTree] at same
        exact absurd same (grows.treeNew unfolds inside plain old)
    · rw [newTree] at same
      rcases grows.standsCases right with old | rfl
      · rw [grows.keptTree unfolds old] at same
        exact absurd same.symm (grows.treeNew unfolds inside plain old)
      · rfl

end

theorem emptyUnfolds (hash : Node → UInt64) : (empty hash).Unfolds := by
  have form : ∀ h, (empty hash).form h = none := by
    intro h
    simp [TypeTable.form, lookup, shard, empty, Shard.empty]
  have bare : ∀ {h r}, (empty hash).form h ≠ some r := by simp [form]
  have cases : ∀ {s}, (empty hash).Stands s → s = none ∨ s = some .overflow := by
    intro s stands
    rcases stands with unknown | overflow | ⟨h, r, rfl, found⟩
    · exact .inl unknown
    · exact .inr overflow
    · exact absurd found bare
  have overflow := (emptySound hash).treeOverflow
  refine ⟨emptySound hash, fun h r found => absurd found bare, fun h r found => absurd found bare,
    fun s d stands _ => ?_, fun s u left right same => ?_⟩
  · rcases cases stands with rfl | rfl
    · rw [tree, treeWithinNone, treeWithinNone]
    · rw [tree, overflow, overflow]
  · rw [tree, tree] at same
    rcases cases left with rfl | rfl <;> rcases cases right with rfl | rfl
    · rfl
    · rw [treeWithinNone, overflow] at same
      cases same
    · rw [treeWithinNone, overflow] at same
      cases same
    · rfl

/- The slots of a call are unknown, the overflow handle, or handles that were given before. -/
def Given (hs : List Handle) (r : Request) : Prop :=
  ∀ s ∈ r.slots, s = none ∨ s = some .overflow ∨ ∃ h ∈ hs, s = some h

/- One call, at which no shard overflows. The handle it gives is put in front of the earlier ones. -/
inductive Call : TypeTable × List Handle → TypeTable × List Handle → Prop
  | call {t : TypeTable} {hs : List Handle} (r : Request) (given : Given hs r) (room : t.HasRoom r) :
    Call (t, hs) ((t.answer r).2, (t.answer r).1 :: hs)

def Calls : TypeTable × List Handle → TypeTable × List Handle → Prop := Relation.ReflTransGen Call

/- What holds after every call: the table unfolds, and each handle that was given has a tree in it. -/
structure Serves (made : TypeTable × List Handle) : Prop where
  unfolds : made.1.Unfolds
  stands : ∀ h ∈ made.2, made.1.Stands (some h)

/- What a later table still says. -/
structure Retains (t later : TypeTable) : Prop where
  keeps : t.Keeps later
  stands : ∀ s, t.Stands s → later.Stands s
  tree : ∀ s, t.Stands s → later.tree s = t.tree s

theorem Retains.refl (t : TypeTable) : t.Retains t :=
  ⟨⟨fun _ _ found => found, fun _ _ _ _ _ => rfl⟩, fun _ stands => stands, fun _ _ => rfl⟩

theorem Retains.trans {a b c : TypeTable} (first : a.Retains b) (second : b.Retains c) : a.Retains c where
  keeps :=
    ⟨fun h n found => second.keeps.nodes h n (first.keeps.nodes h n found),
      fun h n id found there => (second.keeps.lists h n id (first.keeps.nodes h n found) there).trans
        (first.keeps.lists h n id found there)⟩
  stands s stands := second.stands s (first.stands s stands)
  tree s stands := (second.tree s (first.stands s stands)).trans (first.tree s stands)

theorem givenStands {t : TypeTable} {hs : List Handle} (serves : Serves (t, hs)) {r : Request}
    (given : Given hs r) : ∀ s ∈ r.slots, t.Stands s := by
  intro s member
  rcases given s member with unknown | overflow | ⟨h, earlier, rfl⟩
  · exact .inl unknown
  · exact .inr (.inl overflow)
  · exact serves.stands h earlier

end TypeTable

namespace Request

theorem singleMember {r : Request} {h : Handle} (single : r.single? = some h) : some h ∈ r.slots := by
  cases r with
  | union members =>
    have member : some h ∈ Slot.canonical members := by simp [singleCanonical single]
    exact Slot.memCanonical.mp member
  | _ => cases single

/- A union of one known type is that type. -/
theorem singleTree {r : Request} {h : Handle} (single : r.single? = some h) {part : Slot → Ty}
    (known : part (some h) ≠ .unknown) : r.tree part = part (some h) := by
  rw [← settledTree]
  cases r with
  | union members =>
    simp only [single?] at single
    split at single
    · rename_i only canonical
      cases single
      simp [settled, canonical, tree, Ty.unionOf, Ty.canonical, Ty.insertMember, known]
    · cases single
  | _ => cases single

theorem settledPlain {r : Request} (several : r.single? = none) : r.settled.Plain := by
  cases r with
  | union members =>
    have again : Slot.canonical (Slot.canonical members) = Slot.canonical members :=
      Slot.canonicalCongr (fun _ => Slot.memCanonical)
    refine ⟨by rw [settled, settled, again], ?_⟩
    simpa only [settled, single?, again] using several
  | _ => exact ⟨rfl, rfl⟩

end Request

namespace TypeTable

/- What one call does. -/
theorem Serves.call {t : TypeTable} {hs : List Handle} (serves : Serves (t, hs)) {r : Request}
    (given : Given hs r) (room : t.HasRoom r) :
    Serves ((t.answer r).2, (t.answer r).1 :: hs) ∧ t.Retains (t.answer r).2 ∧
      (t.answer r).2.tree (some (t.answer r).1) = r.tree t.tree ∧
      (r.single? = none → (t.answer r).1 ≠ .overflow) := by
  have inside := givenStands serves given
  have unfolds : t.Unfolds := serves.unfolds
  cases single : r.single? with
  | some h =>
    have stands := inside _ (Request.singleMember single)
    have known : t.tree (some h) ≠ .unknown := by
      intro same
      exact nomatch unfolds.distinct (some h) none stands (.inl rfl) (same.trans (treeWithinNone t _).symm)
    rw [answerSingle single]
    exact ⟨⟨unfolds, List.forall_mem_cons.mpr ⟨stands, serves.stands⟩⟩, .refl t,
      (Request.singleTree single known).symm, nofun⟩
  | none =>
    have plain := Request.settledPlain single
    have parts : ∀ s ∈ r.settled.slots, t.Stands s := fun s member => inside s (Request.settledSlots.mp member)
    rcases unfolds.sound.answer single room with ⟨same, found⟩ | grows
    · have stands : t.Stands (some (t.answer r).1) := .inr (.inr ⟨_, _, rfl, found⟩)
      rw [same]
      refine ⟨⟨unfolds, List.forall_mem_cons.mpr ⟨stands, serves.stands⟩⟩, .refl t, ?_, fun _ overflow => ?_⟩
      · rw [unfolds.treeForm found, Request.settledTree]
      · rw [overflow, unfolds.sound.formOverflow] at found
        cases found
    · have later := grows.unfolds unfolds parts plain
      have found : (t.answer r).2.form (t.answer r).1 = some r.settled := by rw [grows.form, if_pos rfl]
      refine ⟨⟨later, List.forall_mem_cons.mpr ⟨.inr (.inr ⟨_, _, rfl, found⟩), fun h earlier =>
          grows.stands (serves.stands h earlier)⟩⟩,
        ⟨grows.keeps, fun s => grows.stands, fun s => grows.keptTree unfolds⟩, ?_, fun _ overflow => ?_⟩
      · rw [← r.settledTree]
        exact grows.newTree unfolds parts (Nat.le_refl _)
      · rw [overflow, later.sound.formOverflow] at found
        cases found

theorem Serves.calls {a b : TypeTable × List Handle} (serves : Serves a) (calls : Calls a b) :
    Serves b ∧ a.1.Retains b.1 := by
  induction calls with
  | refl => exact ⟨serves, .refl a.1⟩
  | tail _ last ih =>
    obtain ⟨before, retains⟩ := ih
    cases last with
    | call r given room =>
      obtain ⟨after, kept, -, -⟩ := before.call given room
      exact ⟨after, retains.trans kept⟩

theorem emptyServes (hash : Node → UInt64) : Serves (empty hash, []) := ⟨emptyUnfolds hash, nofun⟩

theorem Retains.lookup {t later : TypeTable} (retains : t.Retains later) (sound : later.Sound) {h : Handle}
    (old : t.Sound) (stands : t.Stands (some h)) : later.lookup h = t.lookup h := by
  rcases stands with unknown | overflow | ⟨k, r, same, found⟩
  · cases unknown
  · rw [Option.some.inj overflow, sound.kept.overflowFree, old.kept.overflowFree]
  · obtain ⟨n, there, -⟩ := Option.map_eq_some_iff.mp found
    rw [Option.some.inj same, there, retains.keeps.nodes k n there]

/-- After any calls, at none of which a shard overflowed: what stands behind a handle that was given, its
lists and its tree stay as they are under all later calls; a call that does not collapse gives a handle
which is not the overflow handle; the handle that a call gives has the tree that the call stands for; and
two handles that were given are equal exactly if their trees are. -/
theorem handlesStructural (hash : Node → UInt64) {t : TypeTable} {hs : List Handle}
    (made : Calls (empty hash, []) (t, hs)) :
    (∀ later hs', Calls (t, hs) (later, hs') → ∀ h ∈ hs, later.lookup h = t.lookup h ∧
      (∀ n id, t.lookup h = some n → n.list? = some id → later.list id = t.list id) ∧
      later.tree (some h) = t.tree (some h)) ∧
    (∀ r, Given hs r → t.HasRoom r →
      (r.single? = none → (t.answer r).1 ≠ .overflow) ∧
      (t.answer r).2.tree (some (t.answer r).1) = r.tree t.tree) ∧
    t.tree none = .unknown ∧ t.tree (some .overflow) = .missing ∧
    ∀ h ∈ hs, ∀ k ∈ hs, h = k ↔ t.tree (some h) = t.tree (some k) := by
  obtain ⟨serves, -⟩ := (emptyServes hash).calls made
  have unfolds : t.Unfolds := serves.unfolds
  refine ⟨fun later hs' calls h given => ?_, fun r given room => ?_, treeWithinNone t _,
    unfolds.sound.treeOverflow _, fun h left k right => ⟨fun same => by rw [same], fun same => ?_⟩⟩
  · obtain ⟨after, retains⟩ := serves.calls calls
    have stands := serves.stands h given
    exact ⟨retains.lookup after.unfolds.sound unfolds.sound stands,
      fun n id found there => retains.keeps.lists h n id found there, retains.tree (some h) stands⟩
  · obtain ⟨-, -, tree, several⟩ := serves.call given room
    exact ⟨several, tree⟩
  · exact Option.some.inj (unfolds.distinct _ _ (serves.stands h left) (serves.stands k right) same)

/- All nodes fall into one shard. -/
def crowded : TypeTable := empty (fun _ => 0)

def crowdedClass : Handle × TypeTable := crowded.answer (.nominal (some 1))

def crowdedPair : Handle × TypeTable := crowdedClass.2.answer (.tuple none [some crowdedClass.1, none])

def crowdedUnion : Handle × TypeTable :=
  crowdedPair.2.answer (.union [some crowdedClass.1, some crowdedPair.1, some crowdedClass.1])

theorem crowdedCalls :
    Calls (crowded, []) (crowdedUnion.2, [crowdedUnion.1, crowdedPair.1, crowdedClass.1]) := by
  have first : Call (crowded, []) (crowdedClass.2, [crowdedClass.1]) :=
    .call (.nominal (some 1)) nofun (fun _ => .inr (by decide))
  have second : Call (crowdedClass.2, [crowdedClass.1]) (crowdedPair.2, [crowdedPair.1, crowdedClass.1]) :=
    .call (.tuple none [some crowdedClass.1, none]) (by simp [Given, Request.slots])
      (fun _ => .inr (by decide))
  have third : Call (crowdedPair.2, [crowdedPair.1, crowdedClass.1])
      (crowdedUnion.2, [crowdedUnion.1, crowdedPair.1, crowdedClass.1]) :=
    .call (.union [some crowdedClass.1, some crowdedPair.1, some crowdedClass.1])
      (by simp [Given, Request.slots]) (fun _ => .inr (by decide))
  exact .tail (.tail (.single first) second) third

theorem crowdedStructural :
    Calls (crowded, []) (crowdedUnion.2, [crowdedUnion.1, crowdedPair.1, crowdedClass.1]) ∧
      ∀ h ∈ [crowdedUnion.1, crowdedPair.1, crowdedClass.1],
        ∀ k ∈ [crowdedUnion.1, crowdedPair.1, crowdedClass.1],
          h = k ↔ crowdedUnion.2.tree (some h) = crowdedUnion.2.tree (some k) :=
  ⟨crowdedCalls, (handlesStructural (fun _ => 0) crowdedCalls).2.2.2.2⟩

end TypeTable
end GradualTypes
