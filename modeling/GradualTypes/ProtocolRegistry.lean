import GradualTypes.Linearization

/-! Structural protocols. A protocol is known by the name of an abstract class and lists what a class must
offer, itself or through its bases, to count as one, whatever it declares. -/
namespace GradualTypes

/- Names of which one suffices. -/
abbrev Requirement := List String

structure ProtocolRegistry where
  entries : List (String × List Requirement)
  deriving DecidableEq, Repr

namespace ProtocolRegistry

def empty : ProtocolRegistry := ⟨[]⟩

def size (p : ProtocolRegistry) : Nat := p.entries.length

def requirements? (p : ProtocolRegistry) (name : String) : Option (List Requirement) :=
  p.entries.lookup name

def contains (p : ProtocolRegistry) (name : String) : Bool := (p.requirements? name).isSome

def register (p : ProtocolRegistry) (name : String) (requirements : List Requirement) :
    ProtocolRegistry :=
  ⟨(name, requirements) :: p.entries.filter (fun e => e.1 != name)⟩

def standard : ProtocolRegistry := ⟨[
  ("Sized", [["__len__"]]),
  ("Callable", [["__call__"]]),
  ("Hashable", [["__hash__"]]),
  ("Iterable", [["__iter__"]]),
  ("Container", [["__contains__"]]),
  ("Iterator", [["__iter__"], ["next", "__next__"]]),
  ("Reversible", [["__reversed__"]]),
  ("Awaitable", [["__await__"]]),
  ("Sequence", [["__getitem__"], ["__len__"]]),
  ("Mapping", [["__getitem__"], ["__len__"], ["__iter__"], ["keys"]])]⟩

/- Members declared by the class or by any class in its resolution order. -/
def availableMembers (classes : ClassTable) (graph : InheritanceGraph) (c : ClassId) : List String :=
  (graph.resolutionOrder c).flatMap (fun a => ((classes.decl? a).map ClassDecl.members).getD [])

def met (members : List String) (r : Requirement) : Bool := r.any members.contains

/- A protocol that is not registered is satisfied by nothing. -/
def satisfies (p : ProtocolRegistry) (classes : ClassTable) (graph : InheritanceGraph) (c : ClassId)
    (name : String) : Bool :=
  match p.requirements? name with
  | none => false
  | some requirements => requirements.all (met (availableMembers classes graph c))

/- `sub` satisfies the protocol called like `sup`. -/
def isStructuralSubclass (p : ProtocolRegistry) (classes : ClassTable) (graph : InheritanceGraph)
    (sub sup : ClassId) : Bool :=
  match classes.name? sup with
  | none => false
  | some name => p.satisfies classes graph sub name

end ProtocolRegistry
end GradualTypes
