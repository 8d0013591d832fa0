import GradualTypes.AliasMap
import GradualTypes.Record

/-! Manifests. A manifest describes classes with their bases and members, structural protocols, and
aliases for types. -/
namespace GradualTypes

structure ClassStub where
  name : String
  scope : Option String
  bases : List String
  members : List String
  deriving DecidableEq, Repr

def ClassStub.qualifiedName (s : ClassStub) : String :=
  match s.scope with
  | some scope => scope ++ "." ++ s.name
  | none => s.name

structure ProtocolStub where
  name : String
  requirements : List (List String)
  deriving DecidableEq, Repr

structure Manifest where
  classes : List ClassStub
  protocols : List ProtocolStub
  aliases : AliasMap
  deriving Repr

namespace ClassStub

def toJson (s : ClassStub) : Json :=
  .object [
    (some "name", .string s.name),
    (some "module", (s.scope.map Json.string).getD .null),
    (some "bases", .strings s.bases),
    (some "members", .strings s.members)]

def ofJson? (v : Json) : Option ClassStub := do
  match ← v.record? ["name", "module", "bases", "members"] with
  | [some name, scope, bases, members] =>
    some {
      name := ← name.text?
      scope := ← Json.orDefault? (Json.optional? Json.text?) none scope
      bases := ← Json.orDefault? (Json.listOf? Json.text?) [] bases
      members := ← Json.orDefault? (Json.listOf? Json.text?) [] members }
  | _ => none

end ClassStub

namespace ProtocolStub

def toJson (s : ProtocolStub) : Json :=
  .object [
    (some "name", .string s.name),
    (some "requires", .array (s.requirements.map Json.strings))]

def ofJson? (v : Json) : Option ProtocolStub := do
  match ← v.record? ["name", "requires"] with
  | [some name, requirements] =>
    some {
      name := ← name.text?
      requirements := ← Json.orDefault? (Json.listOf? (Json.listOf? Json.text?)) [] requirements }
  | _ => none

end ProtocolStub

namespace Manifest

def toJson (m : Manifest) : Json :=
  .object [
    (some "classes", .array (m.classes.map ClassStub.toJson)),
    (some "protocols", .array (m.protocols.map ProtocolStub.toJson)),
    (some "aliases", m.aliases.toJson)]

def ofJson? (v : Json) : Option Manifest := do
  match ← v.record? ["classes", "protocols", "aliases"] with
  | [classes, protocols, aliases] =>
    some {
      classes := ← Json.orDefault? (Json.listOf? ClassStub.ofJson?) [] classes
      protocols := ← Json.orDefault? (Json.listOf? ProtocolStub.ofJson?) [] protocols
      aliases := ← Json.orDefault? AliasMap.ofJson? .empty aliases }
  | _ => none

def ofText? (s : String) : Option Manifest := (Json.parse? s).bind ofJson?

def toText (m : Manifest) : String := m.toJson.compact

end Manifest
end GradualTypes
