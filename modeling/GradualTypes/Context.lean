import GradualTypes.ProtocolRegistry
import GradualTypes.ReferenceTable

/-! What a match may consult: class declarations, recorded inheritance, structural protocols, and the
answers to references. Nothing of it changes while a match runs. -/
namespace GradualTypes

/- Answers references. A path of a match passes at most `reach` of them; two are enough where answers
hold no references, one for each side. -/
structure Resolver where
  answer : RefId → Ty
  reach : Nat

namespace Resolver

def silent : Resolver := ⟨fun _ => .unknown, 2⟩

def ofTable (t : ReferenceTable) : Resolver := ⟨t.resolve, 2⟩

/- Answers what a reference is bound to and leaves the references in it as they are. No path of a match
between types of the given sizes comes to one pair of types twice unless it never ends. -/
def direct (t : ReferenceTable) (expected actual : Ty) : Resolver :=
  let parts := (expected :: actual :: t.bindings.map Prod.snd).foldr (fun s n => s.code.length + n) 0
  ⟨t.direct, parts * parts⟩

end Resolver

structure Context where
  classes : ClassTable
  graph : InheritanceGraph
  protocols : ProtocolRegistry
  resolver : Resolver

namespace Context

def sameName (d e : ClassDecl) : Bool :=
  match d.name, e.name with
  | some a, some b => a == b
  | _, _ => false

/-- `sub` may stand in for `sup`. A class that is absent or not declared speaks against nothing. -/
def classesCompatible (x : Context) (sup sub : Option ClassId) : Bool :=
  match sup, sub with
  | some p, some b =>
    match x.classes.decl? p, x.classes.decl? b with
    | some pd, some bd =>
      x.graph.isDerivedFrom b p || x.protocols.isStructuralSubclass x.classes x.graph b p ||
        sameName pd bd
    | _, _ => true
  | _, _ => true

def universalName : String := "object"

def isUniversal (x : Context) (c : Option ClassId) : Bool :=
  c.bind x.classes.name? == some universalName

end Context
end GradualTypes
