import GradualTypes.TypeTable
import GradualTypes.Proofs.Associations
import Mathlib.Algebra.Order.BigOperators.Group.List
import Mathlib.Algebra.Order.Ring.Nat

/-! What a table of shared nodes keeps. A handle is a shard and a place in it, nodes and lists each stand at one
place only, and interning either finds a node or adds it, under a handle that stood for nothing. -/
namespace GradualTypes

namespace Handle

theorem samePlace {h k : Handle} (shard : h.shard = k.shard) (place : h.place = k.place) : h = k := by
  cases h
  cases k
  exact congrArg Handle.mk (ShardNumber.distinct shard place)

theorem packed {place : UInt32} (room : place < places) (s : Fin 64) :
    (pack place s).shard = s ∧ (pack place s).place = place.toNat := by
  have small : place.toNat < 67108863 := UInt32.lt_iff_toNat_lt.mp room
  exact ShardNumber.packed (Nat.lt_trans small (by decide)) s

end Handle

section
variable {α ι : Type} [BEq α] [LawfulBEq α]

/- A list of values and the places under which they are found, each value once. -/
def Placed (position : ι → Nat) (items : List α) (places : List (α × ι)) : Prop :=
  ∀ a i, places.lookup a = some i ↔ items[position i]? = some a

theorem Placed.push {position : ι → Nat} (distinct : ∀ i j, position i = position j → i = j)
    {items : List α} {places : List (α × ι)} (placed : Placed position items places) {a : α} {i : ι}
    (fresh : places.lookup a = none) (last : position i = items.length) :
    Placed position (items ++ [a]) (places ++ [(a, i)]) := by
  intro b j
  rw [lookupFresh fresh, placed b j, List.getElem?_append]
  split
  · rename_i inside
    have other : j ≠ i := by
      intro same
      rw [same, last] at inside
      exact Nat.lt_irrefl _ inside
    simp [other]
  · rename_i outside
    have beyond : items[position j]? = none := List.getElem?_eq_none (by omega)
    simp only [beyond, reduceCtorEq, false_or]
    constructor
    · rintro ⟨rfl, rfl⟩
      simp [last]
    · intro found
      have zero : position j - items.length = 0 := by
        have := (List.getElem?_eq_some_iff.mp found).1
        simpa using this
      have same : j = i := distinct j i (by omega)
      rw [zero] at found
      exact ⟨by simpa using found.symm, same⟩

end

namespace SlotLists

def position (id : ListId) : Nat := id.raw.toNat

theorem positionDistinct (i j : ListId) (same : position i = position j) : i = j := by
  cases i
  cases j
  exact congrArg ListId.mk (UInt32.toNat_inj.mp same)

/- Each list stands at one place, and the first is empty. -/
structure Sound (lists : SlotLists) : Prop where
  placed : Placed position lists.items lists.ids
  first : lists.items[0]? = some []

def Knows (lists : SlotLists) (id : ListId) : Prop := position id < lists.items.length

theorem getKnown {lists : SlotLists} {id : ListId} {slots : List Slot}
    (found : lists.items[position id]? = some slots) : lists.get id = slots := by
  rw [get, show lists.items[id.raw.toNat]? = some slots from found, Option.getD_some]

theorem known {lists : SlotLists} {id : ListId} (there : lists.Knows id) :
    lists.items[position id]? = some (lists.get id) := by
  rw [getKnown (List.getElem?_eq_getElem there)]
  exact List.getElem?_eq_getElem there

theorem Sound.getDistinct {lists : SlotLists} (sound : lists.Sound) {i j : ListId} (left : lists.Knows i)
    (right : lists.Knows j) (same : lists.get i = lists.get j) : i = j := by
  have kept := (sound.placed _ i).mpr (known left)
  rw [(sound.placed _ j).mpr (same ▸ known right)] at kept
  exact (Option.some.inj kept).symm

/- The later lists hold all earlier ones, under the same ids. -/
structure Extends (lists later : SlotLists) : Prop where
  sound : later.Sound
  kept : ∀ id, lists.Knows id → later.Knows id ∧ later.get id = lists.get id

/- A list is found, or put behind the others. -/
theorem Sound.intern {lists : SlotLists} (sound : lists.Sound) (room : lists.items.length < 2 ^ 32)
    (slots : List Slot) :
    lists.Extends (lists.intern slots).2 ∧
      (lists.intern slots).2.Knows (lists.intern slots).1 ∧
      (lists.intern slots).2.get (lists.intern slots).1 = slots ∧
      ((lists.intern slots).2 = lists ∨
        (lists.intern slots).2.items.length = lists.items.length + 1 ∧
          ¬ lists.Knows (lists.intern slots).1) := by
  unfold SlotLists.intern
  split
  · rename_i none
    subst none
    have first := sound.first
    exact ⟨⟨sound, fun id there => ⟨there, rfl⟩⟩, (List.getElem?_eq_some_iff.mp first).1, getKnown first, .inl rfl⟩
  · split
    · rename_i id found
      have there := (sound.placed slots id).mp found
      exact ⟨⟨sound, fun id there => ⟨there, rfl⟩⟩, (List.getElem?_eq_some_iff.mp there).1, getKnown there,
        .inl rfl⟩
    · rename_i fresh
      have last : position ⟨UInt32.ofNat lists.items.length⟩ = lists.items.length :=
        UInt32.toNat_ofNat_of_lt' room
      have kept : ∀ id, lists.Knows id → (lists.items ++ [slots])[position id]? = some (lists.get id) :=
        fun id there => (List.getElem?_append_left there).trans (known there)
      have first : (lists.items ++ [slots])[0]? = some [] :=
        (List.getElem?_append_left (List.getElem?_eq_some_iff.mp sound.first).1).trans sound.first
      refine ⟨⟨⟨sound.placed.push positionDistinct fresh last, first⟩, fun id there => ⟨?_, ?_⟩⟩, ?_, ?_,
        .inr ⟨by simp, ?_⟩⟩
      · exact Nat.lt_of_lt_of_le there (by simp)
      · exact getKnown (kept id there)
      · simp [Knows, last]
      · exact getKnown (by simp [last])
      · simp [Knows, last]

end SlotLists

/- The list that a node refers to. -/
def Node.list? : Node → Option ListId
  | .tuple _ id => some id
  | .union id => some id
  | _ => none

namespace TypeTable

/- Each node stands at one place of the shard that its hash picks, and its list is there. -/
structure Kept (t : TypeTable) : Prop where
  nodes : ∀ s : Fin 64, Placed UInt32.toNat (t.shard s).nodes (t.shard s).places
  home : ∀ s : Fin 64, ∀ n ∈ (t.shard s).nodes, t.home n = s
  limit : ∀ s : Fin 64, (t.shard s).nodes.length ≤ Handle.places.toNat
  lists : t.lists.Sound
  known : ∀ s : Fin 64, ∀ n ∈ (t.shard s).nodes, ∀ id ∈ n.list?, t.lists.Knows id

theorem lookupMember {t : TypeTable} {h : Handle} {n : Node} (found : t.lookup h = some n) :
    n ∈ (t.shard h.shard).nodes := List.mem_of_getElem? found

theorem Kept.placeNumber {t : TypeTable} (kept : t.Kept) {h : Handle} {n : Node}
    (found : t.lookup h = some n) : (UInt32.ofNat h.place).toNat = h.place := by
  have below := (List.getElem?_eq_some_iff.mp found).1
  have limit := kept.limit h.shard
  have number : Handle.places.toNat = 67108863 := rfl
  exact UInt32.toNat_ofNat_of_lt' (Nat.lt_trans (Nat.lt_of_lt_of_le below limit) (by decide))

theorem Kept.placeFound {t : TypeTable} (kept : t.Kept) {h : Handle} {n : Node}
    (found : t.lookup h = some n) : (t.shard h.shard).places.lookup n = some (UInt32.ofNat h.place) := by
  refine (kept.nodes h.shard n _).mpr ?_
  rw [kept.placeNumber found]
  exact found

theorem Kept.lookupDistinct {t : TypeTable} (kept : t.Kept) {h k : Handle} {n : Node}
    (left : t.lookup h = some n) (right : t.lookup k = some n) : h = k := by
  have shard : h.shard = k.shard :=
    (kept.home h.shard n (lookupMember left)).symm.trans (kept.home k.shard n (lookupMember right))
  have same := kept.placeFound left
  rw [shard, kept.placeFound right] at same
  have number := congrArg UInt32.toNat (Option.some.inj same)
  rw [kept.placeNumber left, kept.placeNumber right] at number
  exact Handle.samePlace shard number.symm

theorem Kept.overflowFree {t : TypeTable} (kept : t.Kept) : t.lookup .overflow = none := by
  have limit := kept.limit Handle.overflow.shard
  have place : Handle.overflow.place = Handle.places.toNat := rfl
  exact List.getElem?_eq_none (by omega)

/- The node is there already, or its shard is not full. -/
def HasPlace (t : TypeTable) (n : Node) : Prop :=
  ((t.shard (t.home n)).places.lookup n).isSome ∨ (t.shard (t.home n)).nodes.length < Handle.places.toNat

/- A handle is new and stands for a node that was not in the table; all else is as before. -/
structure Adds (t : TypeTable) (n : Node) (made : Handle × TypeTable) : Prop where
  kept : made.2.Kept
  size : made.2.size = t.size + 1
  lists : made.2.lists = t.lists
  fresh : ∀ h, t.lookup h ≠ some n
  free : t.lookup made.1 = none
  lookup : ∀ h, made.2.lookup h = if h = made.1 then some n else t.lookup h

theorem shardPush (t : TypeTable) (s k : Fin 64) (n : Node) (place : UInt32) :
    (t.push s n place).shard k = if k = s then (t.shard s).push n place else t.shard k := by
  by_cases same : k = s
  · subst same
    simp [shard, push]
  · have apart : (s : Nat) ≠ k := fun h => same (Fin.ext h).symm
    simp [shard, push, same, Vector.getElem_set_ne, apart]

theorem sizePush (t : TypeTable) (s : Fin 64) (n : Node) (place : UInt32) :
    (t.push s n place).size = t.size + 1 := by
  have held : t.shards.toList[(s : Nat)]? = some (t.shard s) := by simp [shard]
  have length : ((t.shard s).push n place).nodes.length = (t.shard s).nodes.length + 1 := by
    simp [Shard.push]
  rw [size, size, push, Vector.toList_set]
  exact countSetSucc held length

theorem Kept.sizeBound {t : TypeTable} (kept : t.Kept) : t.size ≤ 64 * Handle.places.toNat := by
  have bound : ∀ m ∈ t.shards.toList.map (fun s => s.nodes.length), m ≤ Handle.places.toNat := by
    intro m member
    obtain ⟨x, inside, rfl⟩ := List.mem_map.mp member
    obtain ⟨i, below, rfl⟩ := List.mem_iff_getElem.mp inside
    have limit := kept.limit ⟨i, by simpa using below⟩
    simpa [shard] using limit
  have sum := List.sum_le_card_nsmul _ _ bound
  rw [List.sum_eq_foldr, List.foldr_map] at sum
  simpa [size] using sum

theorem Kept.push {t : TypeTable} (kept : t.Kept) {n : Node} (known : ∀ id ∈ n.list?, t.lists.Knows id)
    (fresh : (t.shard (t.home n)).places.lookup n = none) {place : UInt32}
    (number : place.toNat = (t.shard (t.home n)).nodes.length) (room : place < Handle.places) :
    (t.push (t.home n) n place).Kept := by
  refine ⟨fun s => ?_, fun s m member => ?_, fun s => ?_, kept.lists, fun s m member => ?_⟩
  · rw [shardPush]
    split
    · exact (kept.nodes (t.home n)).push (fun i j => UInt32.toNat_inj.mp) fresh number
    · exact kept.nodes s
  · rw [shardPush] at member
    split at member
    · rename_i same
      rcases List.mem_append.mp member with old | new
      · exact (kept.home _ m old).trans same.symm
      · rw [List.mem_singleton.mp new, same]
        rfl
    · exact kept.home s m member
  · have below := UInt32.lt_iff_toNat_lt.mp room
    rw [shardPush]
    split
    · simp only [Shard.push, List.length_append, List.length_singleton]
      omega
    · exact kept.limit s
  · rw [shardPush] at member
    split at member
    · rcases List.mem_append.mp member with old | new
      · exact kept.known _ m old
      · rw [List.mem_singleton.mp new]
        exact known
    · exact kept.known s m member

theorem lookupPush {t : TypeTable} {s : Fin 64} {n : Node} {place : UInt32}
    (number : place.toNat = (t.shard s).nodes.length) (room : place < Handle.places) (h : Handle) :
    (t.push s n place).lookup h = if h = .pack place s then some n else t.lookup h := by
  obtain ⟨shard, position⟩ := Handle.packed room s
  rw [lookup, shardPush]
  split
  · rename_i same
    split
    · rename_i packed
      rw [packed, position, number]
      simp [Shard.push]
    · rename_i other
      have apart : h.place ≠ (t.shard s).nodes.length := fun there =>
        other (Handle.samePlace (same.trans shard.symm) (there.trans (number.symm.trans position.symm)))
      rw [lookup, same, Shard.push, List.getElem?_append]
      split
      · rfl
      · rw [List.getElem?_eq_none (by simp; omega), List.getElem?_eq_none (by omega)]
  · rename_i apart
    have other : h ≠ .pack place s := fun packed => apart (packed ▸ shard)
    rw [if_neg other, lookup]

theorem Kept.adds {t : TypeTable} (kept : t.Kept) {n : Node} (known : ∀ id ∈ n.list?, t.lists.Knows id)
    (fresh : (t.shard (t.home n)).places.lookup n = none) {place : UInt32}
    (number : place.toNat = (t.shard (t.home n)).nodes.length) (room : place < Handle.places) :
    t.Adds n (.pack place (t.home n), t.push (t.home n) n place) := by
  obtain ⟨shard, position⟩ := Handle.packed room (t.home n)
  refine ⟨kept.push known fresh number room, sizePush t _ n place, rfl, fun h found => ?_, ?_,
    lookupPush number room⟩
  · have there := kept.placeFound found
    rw [← kept.home h.shard n (lookupMember found), fresh] at there
    cases there
  · rw [lookup, shard, position]
    exact List.getElem?_eq_none (Nat.le_of_eq number.symm)

theorem Kept.intern {t : TypeTable} (kept : t.Kept) {n : Node} (known : ∀ id ∈ n.list?, t.lists.Knows id)
    (room : t.HasPlace n) :
    (t.intern n).2 = t ∧ t.lookup (t.intern n).1 = some n ∨ t.Adds n (t.intern n) := by
  cases found : (t.shard (t.home n)).places.lookup n with
  | some place =>
    have there := (kept.nodes _ n place).mp found
    have below := (List.getElem?_eq_some_iff.mp there).1
    have limit := kept.limit (t.home n)
    have small : place < Handle.places := UInt32.lt_iff_toNat_lt.mpr (Nat.lt_of_lt_of_le below limit)
    obtain ⟨shard, position⟩ := Handle.packed small (t.home n)
    have made : t.intern n = (.pack place (t.home n), t) := by simp [TypeTable.intern, found]
    left
    rw [made, lookup, shard, position]
    exact ⟨rfl, there⟩
  | none =>
    have space : (t.shard (t.home n)).nodes.length < Handle.places.toNat := by
      rcases room with there | space
      · simp [found] at there
      · exact space
    have number : (UInt32.ofNat (t.shard (t.home n)).nodes.length).toNat = (t.shard (t.home n)).nodes.length :=
      UInt32.toNat_ofNat_of_lt' (Nat.lt_trans space (by decide))
    have below : UInt32.ofNat (t.shard (t.home n)).nodes.length < Handle.places := by
      rw [UInt32.lt_iff_toNat_lt, number]
      exact space
    right
    simpa [TypeTable.intern, found, UInt32.not_le.mpr below] using kept.adds known found number below

end TypeTable

end GradualTypes
