import GradualTypes.ShardNumber

/-! Shared strings. A string is kept once and named by its atom. A hash of the string picks one of 64 shards,
and the atom is the number of the shard with the place of the string in it. The empty string is there from
the start, first in the first shard, whatever its hash is. -/
namespace GradualTypes

structure Atom where
  raw : UInt32
  deriving DecidableEq, Repr

namespace Atom

/- The atom of the empty string, which also stands where there is none. -/
def none : Atom := ⟨0⟩

def isNone (a : Atom) : Bool := a.raw == 0

def pack (place : UInt32) (shard : Fin 64) : Atom := ⟨ShardNumber.pack place shard⟩

def shard (a : Atom) : Fin 64 := ShardNumber.shard a.raw

def place (a : Atom) : Nat := ShardNumber.place a.raw

/- The last place that a shard has. -/
def lastPlace : UInt32 := (0xFFFFFFFF : UInt32) >>> 6

end Atom

structure StringShard where
  strings : List String
  atoms : List (String × Atom)

namespace StringShard

def empty : StringShard := ⟨[], []⟩

def push (h : StringShard) (s : String) (a : Atom) : StringShard := ⟨h.strings ++ [s], h.atoms ++ [(s, a)]⟩

end StringShard

structure StringTable where
  hash : String → UInt64
  shards : Vector StringShard 64

namespace StringTable

def shard (t : StringTable) (k : Fin 64) : StringShard := t.shards.get k

def push (t : StringTable) (k : Fin 64) (s : String) (a : Atom) : StringTable :=
  { t with shards := t.shards.setIfInBounds k ((t.shard k).push s a) }

def empty (hash : String → UInt64) : StringTable :=
  push ⟨hash, Vector.replicate 64 StringShard.empty⟩ ShardNumber.first "" .none

def home (t : StringTable) (s : String) : Fin 64 := ShardNumber.home (t.hash s)

def size (t : StringTable) : Nat := t.shards.toList.foldr (fun h n => h.strings.length + n) 0

def isEmpty (t : StringTable) : Bool := t.size ≤ 1

def text? (t : StringTable) (a : Atom) : Option String := (t.shard a.shard).strings[a.place]?

/- An atom the table does not know reads as the empty string. -/
def text (t : StringTable) (a : Atom) : String := (t.text? a).getD ""

/- A string for which its shard has no place left is not kept, and gets the atom of the empty one. -/
def intern (t : StringTable) (s : String) : Atom × StringTable :=
  if s = "" then (.none, t)
  else
    let k := t.home s
    match (t.shard k).atoms.lookup s with
    | some a => (a, t)
    | none =>
      let place := UInt32.ofNat (t.shard k).strings.length
      if Atom.lastPlace < place then (.none, t) else (.pack place k, t.push k s (.pack place k))

/- Takes the string over instead of copying it, which makes no other table. -/
def internOwned (t : StringTable) (s : String) : Atom × StringTable := t.intern s

def internAll (t : StringTable) : List String → StringTable
  | [] => t
  | s :: rest => (t.intern s).2.internAll rest

/- Builtin classes, their modules, and the members that structural protocols ask for. -/
def common : List String :=
  ["object", "type", "NoneType", "bool", "int", "long", "float", "complex", "str", "unicode", "bytes",
   "list", "tuple", "dict", "set", "frozenset",
   "builtins", "__builtin__", "collections", "typing",
   "__len__", "__call__", "__hash__", "__iter__", "__next__", "next", "__contains__", "__reversed__",
   "__await__", "__getitem__", "keys", "__init__"]

def internCommon (t : StringTable) : StringTable := t.internAll common

end StringTable
end GradualTypes
