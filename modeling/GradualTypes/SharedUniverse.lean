import GradualTypes.Query
import GradualTypes.SlotMatching

/-! A universe with its table of types. Lowering an expression, binding an alias and matching all make nodes in
one table, which every later question finds as the earlier ones left it, those that failed included. -/
namespace GradualTypes

structure SharedUniverse where
  -- Classes, names and declared references. What references are bound to stands in the table.
  outline : Universe
  references : SlotReferences
  types : TypeTable

namespace SharedUniverse

def empty (hash : Node → UInt64) : SharedUniverse := ⟨.empty, .empty, .empty hash⟩

/- An answer with the table that was left behind. -/
abbrev Lowered (α : Type) := Except LowerError α × TypeTable

def made (h : Handle × TypeTable) : Lowered Slot := (.ok (some h.1), h.2)

/- Goes on unless a name was at fault. -/
def andThen (part : Lowered α) (next : α → TypeTable → Lowered β) : Lowered β :=
  match part.1 with
  | .error e => (.error e, part.2)
  | .ok a => next a part.2

mutual
/-- The slot for the type an expression spells. Parts that were made before a name at fault stay in the
table. -/
def lowerInto (u : Universe) : TypeExpr → TypeTable → Lowered Slot
  | .unknown, t => (.ok none, t)
  | .named name, t => andThen (u.requireClass name, t) fun c t => made (t.nominal (some c))
  | .union members, t => andThen (lowerAllInto u members t) fun ms t => made (t.union ms)
  | .tuple elements, t =>
    andThen (lowerAllInto u elements t) fun es t => made (t.tuple (u.class? Universe.tupleClassName) es)
  | .collection name element, t =>
    andThen (u.requireClass name, t) fun c t =>
    andThen (lowerInto u element t) fun e t => made (t.collection (some c) e)
  | .aliased name, t => andThen (u.requireAlias name, t) fun r t => made (t.reference r)

def lowerAllInto (u : Universe) : List TypeExpr → TypeTable → Lowered (List Slot)
  | [], t => (.ok [], t)
  | e :: rest, t =>
    andThen (lowerInto u e t) fun s t =>
    andThen (lowerAllInto u rest t) fun ss t => (.ok (s :: ss), t)
end

def lower (u : SharedUniverse) (e : TypeExpr) : Except LowerError Slot × SharedUniverse :=
  let v := lowerInto u.outline e u.types
  (v.1, { u with types := v.2 })

/- The state after a part of an installation, and what stopped it. -/
abbrev Installed := SharedUniverse × Option InstallError

def bindAlias (u : SharedUniverse) (name : String) (body : TypeExpr) : Installed :=
  let v := u.lower body
  match v.1 with
  | .error e => (v.2, some (.body e))
  | .ok target =>
    match u.outline.alias? name with
    | none => (v.2, none)
    | some r => ({ v.2 with references := v.2.references.bind r target }, none)

def bindAliases (u : SharedUniverse) : List (String × TypeExpr) → Installed
  | [] => (u, none)
  | a :: rest =>
    match u.bindAlias a.1 a.2 with
    | (u, none) => u.bindAliases rest
    | (u, some e) => (u, some e)

end SharedUniverse

namespace Universe

/- All of an installation that needs no types. -/
def announce (u : Universe) (m : Manifest) : Installed :=
  let first := u.classes.size + 1
  andThen (u.declareClasses m.classes) fun u =>
  andThen (u.linkClasses first m.classes) fun u =>
  (u.registerProtocols m.protocols).declareAliases m.aliases.entries

end Universe

namespace SharedUniverse

def install (u : SharedUniverse) (m : Manifest) : Installed :=
  match u.outline.announce m with
  | (outline, none) => bindAliases { u with outline := outline } m.aliases.entries
  | (outline, some e) => ({ u with outline := outline }, some e)

def withBuiltins (hash : Node → UInt64) : SharedUniverse := ((empty hash).install .builtins).1

/- Installs manifests one after the other, refused ones in part. -/
def run (u : SharedUniverse) (manifests : List Manifest) : SharedUniverse :=
  manifests.foldl (fun u m => (u.install m).1) u

/- The slots of two expressions and whether they match. -/
structure Comparison where
  expected : Slot
  actual : Slot
  matched : Bool

/- Lowers the expected side, then the actual one, and matches them. A name at fault is reported with its
side. -/
def compare (u : SharedUniverse) (expected actual : TypeExpr) :
    Except (Side × LowerError) Comparison × SharedUniverse :=
  let e := u.lower expected
  match e.1 with
  | .error cause => (.error (.expected, cause), e.2)
  | .ok left =>
    let a := e.2.lower actual
    match a.1 with
    | .error cause => (.error (.actual, cause), a.2)
    | .ok right =>
      let v := u.outline.context.matchSlots u.references left right a.2.types
      (.ok ⟨left, right, v.1⟩, { u with types := v.2 })

def isMatch (u : SharedUniverse) (expected actual : TypeExpr) : Except LowerError Bool × SharedUniverse :=
  let v := u.compare expected actual
  match v.1 with
  | .error fault => (.error fault.2, v.2)
  | .ok c => (.ok c.matched, v.2)

def outcome (u : SharedUniverse) (c : Comparison) (expect : Option Bool) : Outcome :=
  ⟨u.types.displayName u.outline.classes c.expected, u.types.displayName u.outline.classes c.actual, c.matched,
    expect⟩

def answer (u : SharedUniverse) (index : Nat) (q : Query) : Except QueryError Outcome × SharedUniverse :=
  let v := u.compare q.expected q.actual
  match v.1 with
  | .error fault => (.error ⟨index, fault.1, fault.2⟩, v.2)
  | .ok c => (.ok (v.2.outcome c q.expect), v.2)

def answerFrom (u : SharedUniverse) (index : Nat) :
    List Query → Except QueryError (List Outcome) × SharedUniverse
  | [] => (.ok [], u)
  | q :: rest =>
    let v := u.answer index q
    match v.1 with
    | .error e => (.error e, v.2)
    | .ok o =>
      let os := v.2.answerFrom (index + 1) rest
      (os.1.map (o :: ·), os.2)

/- Answers queries in order, each in the table that the ones before left behind; the first that cannot be asked
stops all. -/
def answerAll (u : SharedUniverse) (qs : List Query) : Except QueryError (List Outcome) × SharedUniverse :=
  u.answerFrom 0 qs

end SharedUniverse
end GradualTypes
