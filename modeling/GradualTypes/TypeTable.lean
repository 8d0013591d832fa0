import GradualTypes.ShardNumber
import GradualTypes.Ty

/-! Shared type nodes. A table keeps every node once and only ever grows. A hash of the node picks one of 64
shards, and a handle is the number of the shard with the place of the node in it. A node refers to its
parts by their handles, and to lists of them by their place in one table of lists. -/
namespace GradualTypes

structure Handle where
  raw : UInt32
  deriving DecidableEq, Hashable, Repr

namespace Handle

/- The handle that no table ever gives to a node. -/
def overflow : Handle := ⟨0xFFFFFFFF⟩

/- A shard is full when it holds so many nodes. -/
def places : UInt32 := (0xFFFFFFFF : UInt32) >>> 6

def pack (place : UInt32) (shard : Fin 64) : Handle := ⟨ShardNumber.pack place shard⟩

def shard (h : Handle) : Fin 64 := ShardNumber.shard h.raw

def place (h : Handle) : Nat := ShardNumber.place h.raw

end Handle

/- A place where a type may stand; empty means unknown. -/
abbrev Slot := Option Handle

namespace Slot

/- Unknown comes first, then handles by their number. -/
def rank : Slot → Nat
  | none => 0
  | some h => h.raw.toNat + 1

/- Leaves one of several equal slots that stand next to each other. -/
def dedup : List Slot → List Slot
  | [] => []
  | [s] => [s]
  | s :: u :: rest => if s = u then dedup (u :: rest) else s :: dedup (u :: rest)

def canonical (members : List Slot) : List Slot := dedup (members.mergeSort (fun s u => s.rank ≤ u.rank))

end Slot

structure ListId where
  raw : UInt32
  deriving DecidableEq, Hashable, Repr

/- Lists of slots, each kept once. -/
structure SlotLists where
  items : List (List Slot)
  ids : List (List Slot × ListId)

namespace SlotLists

/- The empty list is there from the start. -/
def empty : SlotLists := ⟨[[]], [([], ⟨0⟩)]⟩

def intern (lists : SlotLists) (slots : List Slot) : ListId × SlotLists :=
  if slots = [] then (⟨0⟩, lists)
  else
    match lists.ids.lookup slots with
    | some id => (id, lists)
    | none =>
      let id : ListId := ⟨UInt32.ofNat lists.items.length⟩
      (id, ⟨lists.items ++ [slots], lists.ids ++ [(slots, id)]⟩)

/- An id that leads to no list stands for the empty one. -/
def get (lists : SlotLists) (id : ListId) : List Slot :=
  (lists.items[id.raw.toNat]?).getD (lists.items.headD [])

end SlotLists

inductive Node where
  | reference (r : RefId)
  | nominal (c : Option ClassId)
  | collection (c : Option ClassId) (element : Slot)
  | tuple (c : Option ClassId) (elements : ListId)
  | union (members : ListId)
  deriving DecidableEq, Hashable, Repr

structure Shard where
  nodes : List Node
  places : List (Node × UInt32)

namespace Shard

def empty : Shard := ⟨[], []⟩

def push (s : Shard) (n : Node) (place : UInt32) : Shard := ⟨s.nodes ++ [n], s.places ++ [(n, place)]⟩

end Shard

structure TypeTable where
  hash : Node → UInt64
  shards : Vector Shard 64
  lists : SlotLists

namespace TypeTable

def empty (hash : Node → UInt64) : TypeTable := ⟨hash, Vector.replicate 64 Shard.empty, SlotLists.empty⟩

def home (t : TypeTable) (n : Node) : Fin 64 := ShardNumber.home (t.hash n)

def shard (t : TypeTable) (s : Fin 64) : Shard := t.shards[s]

def lookup (t : TypeTable) (h : Handle) : Option Node := (t.shard h.shard).nodes[h.place]?

def list (t : TypeTable) (id : ListId) : List Slot := t.lists.get id

def push (t : TypeTable) (s : Fin 64) (n : Node) (place : UInt32) : TypeTable :=
  { t with shards := t.shards.set s ((t.shard s).push n place) }

/- Nothing is kept in a shard that is full. -/
def intern (t : TypeTable) (n : Node) : Handle × TypeTable :=
  let s := t.home n
  match (t.shard s).places.lookup n with
  | some place => (.pack place s, t)
  | none =>
    let place := UInt32.ofNat (t.shard s).nodes.length
    if Handle.places ≤ place then (.overflow, t) else (.pack place s, t.push s n place)

def reference (t : TypeTable) (r : RefId) : Handle × TypeTable := t.intern (.reference r)

def nominal (t : TypeTable) (c : Option ClassId) : Handle × TypeTable := t.intern (.nominal c)

def collection (t : TypeTable) (c : Option ClassId) (element : Slot) : Handle × TypeTable :=
  t.intern (.collection c element)

def tuple (t : TypeTable) (c : Option ClassId) (elements : List Slot) : Handle × TypeTable :=
  let (id, lists) := t.lists.intern elements
  { t with lists := lists }.intern (.tuple c id)

/- Members are kept in one order and once each; one known member stands for itself. -/
def union (t : TypeTable) (members : List Slot) : Handle × TypeTable :=
  match Slot.canonical members with
  | [some only] => (only, t)
  | ms =>
    let (id, lists) := t.lists.intern ms
    { t with lists := lists }.intern (.union id)

def size (t : TypeTable) : Nat := t.shards.toList.foldr (fun s n => s.nodes.length + n) 0

/- The tree of a node, given the trees of its parts. -/
def nodeTree (t : TypeTable) (part : Slot → Ty) : Node → Ty
  | .reference r => .reference r
  | .nominal c => .nominal c
  | .collection c element => .collection c (part element)
  | .tuple c elements => .tuple c ((t.list elements).map part)
  | .union members => .unionOf ((t.list members).map part)

/- A tree is followed so many nodes deep. -/
def treeWithin (t : TypeTable) : Nat → Slot → Ty
  | _, none => .unknown
  | 0, some _ => .missing
  | depth + 1, some h =>
    match t.lookup h with
    | none => .missing
    | some n => t.nodeTree (t.treeWithin depth) n

/- The tree behind a slot. A node is made after its parts, so that no branch is longer than the table. -/
def tree (t : TypeTable) (s : Slot) : Ty := t.treeWithin t.size s

mutual
def add (t : TypeTable) : Ty → Slot × TypeTable
  | .unknown => (none, t)
  | .missing => (some .overflow, t)
  | .reference r => let (h, t) := t.reference r; (some h, t)
  | .nominal c => let (h, t) := t.nominal c; (some h, t)
  | .collection c element =>
    let (s, t) := t.add element
    let (h, t) := t.collection c s
    (some h, t)
  | .tuple c elements =>
    let (ss, t) := t.addAll elements
    let (h, t) := t.tuple c ss
    (some h, t)
  | .union members =>
    let (ss, t) := t.addAll members
    let (h, t) := t.union ss
    (some h, t)

def addAll (t : TypeTable) : List Ty → List Slot × TypeTable
  | [] => ([], t)
  | x :: xs =>
    let (s, t) := t.add x
    let (ss, t) := t.addAll xs
    (s :: ss, t)
end

end TypeTable
end GradualTypes
