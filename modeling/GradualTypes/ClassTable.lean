/-! Class declarations. A declaration never changes once made; its class id is its position, counted
from 1, so that id 0 and ids past the end are undeclared. Two declarations may carry one name. -/
namespace GradualTypes

abbrev ClassId := Nat

structure ClassDecl where
  -- Absent where it could not be determined.
  name : Option String
  scope : Option String
  -- The names declared in the class body itself, inherited ones not included.
  members : List String
  deriving DecidableEq, Repr

def ClassDecl.declares (d : ClassDecl) (member : String) : Bool := d.members.contains member

structure ClassTable where
  decls : List ClassDecl
  deriving DecidableEq, Repr

namespace ClassTable

def empty : ClassTable := ⟨[]⟩

def size (t : ClassTable) : Nat := t.decls.length

def declare (t : ClassTable) (d : ClassDecl) : ClassId × ClassTable :=
  (t.decls.length + 1, ⟨t.decls ++ [d]⟩)

def decl? (t : ClassTable) : ClassId → Option ClassDecl
  | 0 => none
  | n + 1 => t.decls[n]?

def name? (t : ClassTable) (c : ClassId) : Option String := (t.decl? c).bind ClassDecl.name

def withName (t : ClassTable) (name : String) : List ClassId :=
  (List.range (t.size + 1)).filter (fun c => t.name? c == some name)

end ClassTable

/- Zero names no class. -/
def ClassId.isValid (c : ClassId) : Bool := 1 ≤ c

end GradualTypes
