import GradualTypes.ReferenceTable
import GradualTypes.TypeTable

/-! References bound to slots. Resolving one reads the nodes behind its binding and makes those of the answer
in the same table, so that it leaves the table larger. Members of unions are taken in the order of their
handles. The limits are those of every resolution. -/
namespace GradualTypes

/- Takes values one after the other, each in the state that the one before left behind. -/
def inTurn (step : α → σ → β × σ) : List α → σ → List β × σ
  | [], s => ([], s)
  | a :: rest, s =>
    let first := step a s
    let others := inTurn step rest first.2
    (first.1 :: others.1, others.2)

/- One resolution in progress, with the table in which its answer is made. -/
structure Unfolding where
  unfolder : Unfolder
  types : TypeTable

namespace Unfolding

def start (types : TypeTable) : Unfolding := ⟨.start, types⟩

def enter (s : Unfolding) (r : RefId) : Unfolding := ⟨s.unfolder.enter r, s.types⟩

def leave (s : Unfolding) (r : RefId) (depth : Nat) : Unfolding := ⟨s.unfolder.leave r depth, s.types⟩

/- Goes on with the table in which a node was made. -/
def making (s : Unfolding) (made : Handle × TypeTable) : Slot × Unfolding :=
  (some made.1, ⟨s.unfolder, made.2⟩)

end Unfolding

structure SlotReferences where
  bindings : List (RefId × Slot)

namespace SlotReferences

def empty : SlotReferences := ⟨[]⟩

def size (refs : SlotReferences) : Nat := refs.bindings.length

def bind (refs : SlotReferences) (r : RefId) (target : Slot) : SlotReferences :=
  ⟨(r, target) :: refs.bindings.filter (fun b => b.1 != r)⟩

def binding? (refs : SlotReferences) (r : RefId) : Option Slot := refs.bindings.lookup r

def direct (refs : SlotReferences) (r : RefId) : Slot := (refs.binding? r).getD none

/- Replaces the references in a node, given how those in a slot are replaced. -/
def unfoldNode (expand : RefId → Unfolding → Slot × Unfolding) (part : Slot → Unfolding → Slot × Unfolding)
    (h : Handle) (s : Unfolding) : Node → Slot × Unfolding
  | .reference r => expand r s
  | .nominal _ => (some h, s)
  | .collection c element =>
    let e := part element s
    e.2.making (e.2.types.collection c e.1)
  | .tuple c elements =>
    let es := inTurn part (s.types.list elements) s
    es.2.making (es.2.types.tuple c es.1)
  | .union members =>
    let ms := inTurn part (s.types.list members) s
    ms.2.making (ms.2.types.union ms.1)

/- Nodes are followed so many deep. A handle that leads to no node stays as it is. -/
def unfoldWithin (expand : RefId → Unfolding → Slot × Unfolding) : Nat → Slot → Unfolding → Slot × Unfolding
  | depth + 1, some h, s =>
    match s.types.lookup h with
    | none => (some h, s)
    | some n => unfoldNode expand (unfoldWithin expand depth) h s n
  | _, slot, s => (slot, s)

/- Opens references so many deep inside each other. Every opening costs budget, so that none is left when as
many are open as there was budget at the start. -/
def expandWithin (refs : SlotReferences) : Nat → RefId → Unfolding → Slot × Unfolding
  | 0, _, s => (none, s)
  | turns + 1, r, s =>
    if s.unfolder.isSpent r then (none, s)
    else
      let u := unfoldWithin (refs.expandWithin turns) s.types.size (refs.direct r) (s.enter r)
      (u.1, u.2.leave r (s.unfolder.depth r))

def resolve (refs : SlotReferences) (r : RefId) (types : TypeTable) : Slot × TypeTable :=
  let u := refs.expandWithin Unfolder.expansionLimit r (.start types)
  (u.1, u.2.types)

end SlotReferences
end GradualTypes
