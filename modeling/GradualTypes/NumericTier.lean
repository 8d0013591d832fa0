/-! The numeric tower. Builtin numeric classes do not inherit from each other; their names alone put
them in the order bool, int, long, float, complex, and a value may be promoted upwards. -/
namespace GradualTypes

inductive NumericTier where
  | bool
  | int
  | long
  | float
  | complex
  deriving DecidableEq, Repr

namespace NumericTier

def rank : NumericTier → Nat
  | bool => 0
  | int => 1
  | long => 2
  | float => 3
  | complex => 4

def ofName? (name : String) : Option NumericTier :=
  if name = "bool" then some bool
  else if name = "int" then some int
  else if name = "long" then some long
  else if name = "float" then some float
  else if name = "complex" then some complex
  else none

instance : Ord NumericTier := ⟨fun s t => compare s.rank t.rank⟩

/- A value of the class named `actual` may be promoted to the class named `expected`. Equal names are
no promotion. -/
def promotes (expected actual : String) : Bool :=
  match ofName? expected, ofName? actual with
  | some e, some a => a.rank < e.rank
  | _, _ => false

end NumericTier
end GradualTypes
