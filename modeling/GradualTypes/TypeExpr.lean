import GradualTypes.Json.Reader
import GradualTypes.Json.Printer

/-! Spelled types. An expression names classes and aliases; what they are is decided when it is lowered.
Written as JSON its form is told by its keys, and other keys do not count. -/
namespace GradualTypes

inductive TypeExpr where
  | unknown
  | named (name : String)
  | union (members : List TypeExpr)
  | tuple (elements : List TypeExpr)
  | collection (name : String) (element : TypeExpr)
  | aliased (name : String)
  deriving Repr

namespace TypeExpr

instance : Inhabited TypeExpr := ⟨unknown⟩

mutual
def toJson : TypeExpr → Json
  | unknown => .null
  | named name => .string name
  | union members => .object [(some "union", .array (toJsons members))]
  | tuple elements => .object [(some "tuple", .array (toJsons elements))]
  | collection name element =>
    .object [(some "collection", .string name), (some "element", toJson element)]
  | aliased name => .object [(some "ref", .string name)]

def toJsons : List TypeExpr → List Json
  | [] => []
  | e :: rest => toJson e :: toJsons rest
end

/- All that a value can be taken for where a part of an expression is expected. -/
structure Senses where
  text? : Option String
  expr? : Option TypeExpr
  exprs? : Option (List TypeExpr)

namespace Senses

def nothing : Senses := ⟨none, none, none⟩

def all? : List Senses → Option (List TypeExpr)
  | [] => some []
  | s :: rest =>
    match s.expr?, all? rest with
    | some e, some es => some (e :: es)
    | _, _ => none

def under (key : String) (fields : List (Option String × Senses)) : List Senses :=
  (fields.filter (fun f => f.1 == some key)).map Prod.snd

def only? : List Senses → Option Senses
  | [s] => some s
  | _ => none

def union? (fields : List (Option String × Senses)) : Option TypeExpr :=
  ((only? (under "union" fields)).bind Senses.exprs?).map .union

def tuple? (fields : List (Option String × Senses)) : Option TypeExpr :=
  ((only? (under "tuple" fields)).bind Senses.exprs?).map .tuple

def element? (fields : List (Option String × Senses)) : Option TypeExpr :=
  match under "element" fields with
  | [] => some .unknown
  | [s] => s.expr?
  | _ => none

def collection? (fields : List (Option String × Senses)) : Option TypeExpr :=
  match (only? (under "collection" fields)).bind Senses.text?, element? fields with
  | some name, some element => some (.collection name element)
  | _, _ => none

def alias? (fields : List (Option String × Senses)) : Option TypeExpr :=
  ((only? (under "ref" fields)).bind Senses.text?).map .aliased

/- The first form that the fields can be read as. -/
def ofFields (fields : List (Option String × Senses)) : Senses :=
  ⟨none, union? fields <|> tuple? fields <|> collection? fields <|> alias? fields, none⟩

mutual
def ofJson : Json → Senses
  | .null => ⟨none, some .unknown, none⟩
  | .bool _ => nothing
  | .number _ => nothing
  | .text content => ⟨content, content.map .named, none⟩
  | .array items => ⟨none, none, all? (ofItems items)⟩
  | .object fields => ofFields (ofMembers fields)

def ofItems : List Json → List Senses
  | [] => []
  | v :: rest => ofJson v :: ofItems rest

def ofMembers : List (Option String × Json) → List (Option String × Senses)
  | [] => []
  | (key, v) :: rest => (key, ofJson v) :: ofMembers rest
end

end Senses

/-- Reads an expression inside `level` open arrays and objects. The whole value has to be readable, also
where it does not count. -/
def ofJson? (level : Nat) (v : Json) : Option TypeExpr :=
  if v.isReadable level then (Senses.ofJson v).expr? else none

def ofText? (s : String) : Option TypeExpr := (Json.parse? s).bind (ofJson? 0)

/- Text that spells no expression is taken as the name of a class. -/
def ofArgument (s : String) : TypeExpr := (ofText? s).getD (named s)

end TypeExpr
end GradualTypes
