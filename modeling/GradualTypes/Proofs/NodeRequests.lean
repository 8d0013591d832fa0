import GradualTypes.Proofs.SharedNodes

/-! Calls of the constructors of a table. A handle stands for one call, written in one way, and no two handles
stand for the same; a call gives the handle that stands for it, or adds one and leaves all others as they
were. -/
namespace GradualTypes

/- A call of a constructor. -/
inductive Request where
  | reference (r : RefId)
  | nominal (c : Option ClassId)
  | collection (c : Option ClassId) (element : Slot)
  | tuple (c : Option ClassId) (elements : List Slot)
  | union (members : List Slot)
  deriving DecidableEq, Repr

namespace Request

def slots : Request → List Slot
  | .reference _ => []
  | .nominal _ => []
  | .collection _ element => [element]
  | .tuple _ elements => elements
  | .union members => members

/- The one known member of a union, which stands for the union. -/
def single? : Request → Option Handle
  | .union members =>
    match Slot.canonical members with
    | [some only] => some only
    | _ => none
  | _ => none

def settled : Request → Request
  | .union members => .union (Slot.canonical members)
  | r => r

/- The node that a call asks for, with the lists among which its own is then. -/
def node (lists : SlotLists) : Request → Node × SlotLists
  | .reference r => (.reference r, lists)
  | .nominal c => (.nominal c, lists)
  | .collection c element => (.collection c element, lists)
  | .tuple c elements => (.tuple c (lists.intern elements).1, (lists.intern elements).2)
  | .union members =>
    (.union (lists.intern (Slot.canonical members)).1, (lists.intern (Slot.canonical members)).2)

theorem singleCanonical {members : List Slot} {h : Handle} (single : (union members).single? = some h) :
    Slot.canonical members = [some h] := by
  simp only [single?] at single
  split at single
  · rename_i only canonical
    cases single
    exact canonical
  · cases single

end Request

namespace TypeTable

def answer (t : TypeTable) : Request → Handle × TypeTable
  | .reference r => t.reference r
  | .nominal c => t.nominal c
  | .collection c element => t.collection c element
  | .tuple c elements => t.tuple c elements
  | .union members => t.union members

def withLists (t : TypeTable) (lists : SlotLists) : TypeTable := ⟨t.hash, t.shards, lists⟩

theorem answerSingle {t : TypeTable} {r : Request} {h : Handle} (single : r.single? = some h) :
    t.answer r = (h, t) := by
  cases r with
  | union members => simp only [answer, TypeTable.union, Request.singleCanonical single]
  | _ => cases single

theorem answerNode {t : TypeTable} {r : Request} (several : r.single? = none) :
    t.answer r = (t.withLists (r.node t.lists).2).intern (r.node t.lists).1 := by
  cases r with
  | union members =>
    have other : ∀ only, Slot.canonical members ≠ [some only] := by
      intro only canonical
      simp [Request.single?, canonical] at several
    rw [answer, TypeTable.union]
    split
    · rename_i only canonical
      exact absurd canonical (other only)
    · rfl
  | _ => rfl

/- No shard overflows at the call. -/
def HasRoom (t : TypeTable) (r : Request) : Prop := r.single? = none → t.HasPlace (r.node t.lists).1

/- The call that asks for a node. -/
def read (t : TypeTable) : Node → Request
  | .reference r => .reference r
  | .nominal c => .nominal c
  | .collection c element => .collection c element
  | .tuple c elements => .tuple c (t.list elements)
  | .union members => .union (t.list members)

def form (t : TypeTable) (h : Handle) : Option Request := (t.lookup h).map t.read

/- A table is kept in order, and there are no more lists than nodes besides the empty one. -/
structure Sound (t : TypeTable) : Prop where
  kept : t.Kept
  lists : t.lists.items.length ≤ t.size + 1

/- Whatever was found under a handle is found there again. -/
structure Keeps (t t' : TypeTable) : Prop where
  nodes : ∀ h n, t.lookup h = some n → t'.lookup h = some n
  lists : ∀ h n id, t.lookup h = some n → n.list? = some id → t'.list id = t.list id

/- A handle is new and stands for a call that no handle stood for. -/
structure Grows (t : TypeTable) (r : Request) (made : Handle × TypeTable) : Prop where
  sound : made.2.Sound
  size : made.2.size = t.size + 1
  keeps : t.Keeps made.2
  fresh : ∀ h, t.form h ≠ some r
  free : t.lookup made.1 = none
  form : ∀ h, made.2.form h = if h = made.1 then some r else t.form h

theorem Kept.listKnown {t : TypeTable} (kept : t.Kept) {h : Handle} {n : Node} (found : t.lookup h = some n) :
    ∀ id ∈ n.list?, t.lists.Knows id := kept.known h.shard n (lookupMember found)

theorem readCongr {t t' : TypeTable} {n : Node} (same : ∀ id ∈ n.list?, t'.list id = t.list id) :
    t'.read n = t.read n := by
  cases n with
  | tuple c id => rw [read, read, same id rfl]
  | union id => rw [read, read, same id rfl]
  | _ => rfl

theorem readDistinct {t : TypeTable} (lists : t.lists.Sound) {n m : Node}
    (left : ∀ id ∈ n.list?, t.lists.Knows id) (right : ∀ id ∈ m.list?, t.lists.Knows id)
    (same : t.read n = t.read m) : n = m := by
  cases n <;> cases m <;> simp only [read, Request.reference.injEq, Request.nominal.injEq,
    Request.collection.injEq, Request.tuple.injEq, Request.union.injEq, reduceCtorEq] at same
  case reference.reference => rw [same]
  case nominal.nominal => rw [same]
  case collection.collection => rw [same.1, same.2]
  case tuple.tuple => rw [same.1, lists.getDistinct (left _ rfl) (right _ rfl) same.2]
  case union.union => rw [lists.getDistinct (left _ rfl) (right _ rfl) same]

theorem Kept.withLists {t : TypeTable} (kept : t.Kept) {lists : SlotLists} (ext : t.lists.Extends lists) :
    (t.withLists lists).Kept :=
  ⟨kept.nodes, kept.home, kept.limit, ext.sound,
    fun s n member id there => (ext.kept id (kept.known s n member id there)).1⟩

/- Making the node of a call adds its list, unless the list is there or there is none. -/
theorem nodeLists {t : TypeTable} (sound : t.lists.Sound) (room : t.lists.items.length < 2 ^ 32)
    {r : Request} (several : r.single? = none) :
    t.lists.Extends (r.node t.lists).2 ∧
      (∀ id ∈ (r.node t.lists).1.list?, (r.node t.lists).2.Knows id) ∧
      (t.withLists (r.node t.lists).2).read (r.node t.lists).1 = r.settled ∧
      ((r.node t.lists).2 = t.lists ∨
        (r.node t.lists).2.items.length = t.lists.items.length + 1 ∧
          ∃ id ∈ (r.node t.lists).1.list?, ¬ t.lists.Knows id) := by
  have none : t.lists.Extends t.lists := ⟨sound, fun id there => ⟨there, rfl⟩⟩
  cases r with
  | reference r => exact ⟨none, by simp [Request.node, Node.list?], rfl, .inl rfl⟩
  | nominal c => exact ⟨none, by simp [Request.node, Node.list?], rfl, .inl rfl⟩
  | collection c element => exact ⟨none, by simp [Request.node, Node.list?], rfl, .inl rfl⟩
  | tuple c elements =>
    obtain ⟨ext, known, got, added⟩ := sound.intern room elements
    refine ⟨ext, fun id there => ?_, ?_, added.imp_right (fun new => ⟨new.1, _, rfl, new.2⟩)⟩
    · obtain rfl : (t.lists.intern elements).1 = id := Option.some.inj there
      exact known
    · exact congrArg (Request.tuple c) got
  | union members =>
    obtain ⟨ext, known, got, added⟩ := sound.intern room (Slot.canonical members)
    refine ⟨ext, fun id there => ?_, ?_, added.imp_right (fun new => ⟨new.1, _, rfl, new.2⟩)⟩
    · obtain rfl : (t.lists.intern (Slot.canonical members)).1 = id := Option.some.inj there
      exact known
    · exact congrArg Request.union got

theorem Sound.answer {t : TypeTable} (sound : t.Sound) {r : Request} (several : r.single? = none)
    (room : t.HasRoom r) :
    (t.answer r).2 = t ∧ t.form (t.answer r).1 = some r.settled ∨ t.Grows r.settled (t.answer r) := by
  have count : t.lists.items.length < 2 ^ 32 := by
    have nodes := sound.kept.sizeBound
    have lists := sound.lists
    have number : Handle.places.toNat = 67108863 := rfl
    omega
  obtain ⟨ext, known, read, added⟩ := nodeLists sound.kept.lists count several
  have kept := sound.kept.withLists ext
  have made := answerNode (t := t) several
  rcases kept.intern known (room several) with ⟨same, found⟩ | adds
  · left
    have old : t.lookup (t.answer r).1 = some (r.node t.lists).1 := by
      rw [made]
      exact found
    have lists : (r.node t.lists).2 = t.lists := by
      rcases added with unchanged | ⟨-, id, there, new⟩
      · exact unchanged
      · exact absurd (sound.kept.listKnown old id there) new
    have table : t.withLists (r.node t.lists).2 = t := by rw [lists]; rfl
    refine ⟨by rw [made, same, table], ?_⟩
    rw [form, old, Option.map_some, ← read, table]
  · right
    rw [← made] at adds
    have held : ∀ {h n}, t.lookup h = some n → ∀ id ∈ n.list?, (t.answer r).2.list id = t.list id := by
      intro h n found id there
      rw [TypeTable.list, adds.lists]
      exact (ext.kept id (sound.kept.listKnown found id there)).2
    have free : t.lookup (t.answer r).1 = none := adds.free
    have old : ∀ {h}, h ≠ (t.answer r).1 → (t.answer r).2.lookup h = t.lookup h := by
      intro h other
      rw [adds.lookup, if_neg other]
      rfl
    have new : (t.answer r).2.read (r.node t.lists).1 = r.settled := by
      rw [← read]
      exact readCongr (fun id _ => by rw [TypeTable.list, adds.lists]; rfl)
    refine ⟨⟨adds.kept, ?_⟩, adds.size, ⟨fun h n found => ?_, fun h n id found there => held found id there⟩,
      fun h there => ?_, free, fun h => ?_⟩
    · have size : (t.answer r).2.size = t.size + 1 := adds.size
      have before := sound.lists
      rw [adds.lists, size]
      show (r.node t.lists).2.items.length ≤ t.size + 1 + 1
      rcases added with unchanged | ⟨longer, -⟩
      · rw [unchanged]
        omega
      · omega
    · rw [old (fun same => ?_), found]
      rw [same, free] at found
      cases found
    · obtain ⟨m, found, same⟩ := Option.map_eq_some_iff.mp there
      have kept := sound.kept.listKnown found
      have reread : (t.withLists (r.node t.lists).2).read m = t.read m :=
        readCongr (fun id there => (ext.kept id (kept id there)).2)
      have node := readDistinct ext.sound (fun id there => (ext.kept id (kept id there)).1) known
        (reread.trans (same.trans read.symm))
      exact adds.fresh h (node ▸ found)
    · split
      · rename_i same
        rw [form, adds.lookup, if_pos same, Option.map_some, new]
      · rename_i other
        rw [form, old other, form]
        cases found : t.lookup h with
        | none => rfl
        | some n => rw [Option.map_some, Option.map_some, readCongr (held found)]

theorem emptySound (hash : Node → UInt64) : (empty hash).Sound := by
  have shard : ∀ s, (empty hash).shard s = Shard.empty := by simp [TypeTable.shard, empty]
  have first : Placed SlotLists.position SlotLists.empty.items SlotLists.empty.ids := by
    have nothing : Placed SlotLists.position ([] : List (List Slot)) [] := by simp [Placed]
    exact nothing.push SlotLists.positionDistinct rfl rfl
  refine ⟨⟨fun s => ?_, fun s n member => ?_, fun s => ?_, ⟨first, rfl⟩, fun s n member => ?_⟩, ?_⟩
  · simp [shard, Shard.empty, Placed]
  · simp [shard, Shard.empty] at member
  · simp [shard, Shard.empty]
  · simp [shard, Shard.empty] at member
  · simp [empty, SlotLists.empty]

end TypeTable
end GradualTypes
