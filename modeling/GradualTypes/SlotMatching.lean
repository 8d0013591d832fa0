import GradualTypes.Matching
import GradualTypes.SlotReferences

/-! Matching of slots. The rules are those for types, tried in the same order on the nodes behind two slots;
members and elements are taken in the order in which the table lists them. Answers to references are made in
the table, which is all that a match changes. -/
namespace GradualTypes

/- Stops at the first that does not hold. -/
def allInTurn (f : α → σ → Bool × σ) : List α → σ → Bool × σ
  | [], s => (true, s)
  | a :: rest, s =>
    let first := f a s
    if first.1 then allInTurn f rest first.2 else first

/- Stops at the first that holds. -/
def anyInTurn (f : α → σ → Bool × σ) : List α → σ → Bool × σ
  | [], s => (false, s)
  | a :: rest, s =>
    let first := f a s
    if first.1 then first else anyInTurn f rest first.2

def Node.class? : Node → Option ClassId
  | .nominal c => c
  | .collection c _ => c
  | .tuple c _ => c
  | _ => none

namespace TypeTable

def joinNames (name? : Slot → Option String) (separator : String) (slots : List Slot) : String :=
  separator.intercalate (slots.map (fun s => (name? s).getD Ty.namelessLabel))

/- The display name of a node, given those of its parts. -/
def nodeName? (t : TypeTable) (classes : ClassTable) (name? : Slot → Option String) : Node → Option String
  | .reference _ => none
  | .nominal c => c.bind classes.name?
  | .collection c _ => c.bind classes.name?
  | .tuple _ elements => some ("tuple(" ++ joinNames name? ", " (t.list elements) ++ ")")
  | .union members => some (joinNames name? " | " (t.list members))

def nameWithin (t : TypeTable) (classes : ClassTable) : Nat → Slot → Option String
  | depth + 1, some h => (t.lookup h).bind (t.nodeName? classes (t.nameWithin classes depth))
  | _, _ => none

def name? (t : TypeTable) (classes : ClassTable) (s : Slot) : Option String := t.nameWithin classes t.size s

def displayName (t : TypeTable) (classes : ClassTable) (s : Slot) : String :=
  (t.name? classes s).getD Ty.namelessLabel

end TypeTable

namespace Context

def slotNamesMatch (x : Context) (t : TypeTable) (expected actual : Slot) : Bool :=
  match t.name? x.classes expected, t.name? x.classes actual with
  | some e, some a => e == a || NumericTier.promotes e a
  | _, _ => true

/-- The rules for the nodes behind two handles; `part` compares slots in them, and `resume` goes on where a
reference was answered. -/
def compareNodes (x : Context) (refs : SlotReferences) (resume part : Slot → Slot → TypeTable → Bool × TypeTable)
    (expected actual : Handle) (t : TypeTable) : Node → Node → Bool × TypeTable
  | .reference r, _ =>
    let u := refs.resolve r t
    resume u.1 (some actual) u.2
  | _, .reference r =>
    let u := refs.resolve r t
    resume (some expected) u.1 u.2
  | _, .union ms =>
    if none ∈ t.list ms then (true, t)
    else allInTurn (part (some expected)) (t.list ms) t
  | .union ms, _ => anyInTurn (fun m => part m (some actual)) (t.list ms) t
  | .collection c e, .collection d a =>
    if x.isUniversal c then (true, t)
    else if x.classesCompatible c d then part e a t
    else (false, t)
  | .tuple c es, .tuple _ as =>
    if x.isUniversal c then (true, t)
    else if (t.list es).length = (t.list as).length then
      allInTurn (fun p => part p.1 p.2) ((t.list es).zip (t.list as)) t
    else (false, t)
  | n, m =>
    (x.isUniversal n.class? || x.classesCompatible n.class? m.class? || expected == actual ||
      x.slotNamesMatch t (some expected) (some actual), t)

/- Nodes of the two sides are followed so many deep together. A handle that leads to no node says nothing. -/
def compareSlots (x : Context) (refs : SlotReferences) (resume : Slot → Slot → TypeTable → Bool × TypeTable) :
    Nat → Slot → Slot → TypeTable → Bool × TypeTable
  | depth + 1, some e, some a, t =>
    match t.lookup e, t.lookup a with
    | some n, some m => x.compareNodes refs resume (x.compareSlots refs resume depth) e a t n m
    | _, _ => (true, t)
  | _, _, _, t => (true, t)

/- Passes at most `steps` references on a path and takes the next one as unknown. -/
def matchWithin (x : Context) (refs : SlotReferences) : Nat → Slot → Slot → TypeTable → Bool × TypeTable
  | 0, e, a, t => x.compareSlots refs (fun _ _ t => (true, t)) (2 * t.size) e a t
  | steps + 1, e, a, t => x.compareSlots refs (x.matchWithin refs steps) (2 * t.size) e a t

/- Answers hold no references, so that a path passes one on each side. -/
def matchSlots (x : Context) (refs : SlotReferences) (expected actual : Slot) (t : TypeTable) : Bool × TypeTable :=
  x.matchWithin refs 2 expected actual t

end Context
end GradualTypes
