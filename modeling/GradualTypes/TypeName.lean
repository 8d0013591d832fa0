import GradualTypes.Ty

/-! Display names. A class or collection is called after its class, tuples and unions after their parts;
unknown types and references have no name of their own and read as `unknown` inside a name. -/
namespace GradualTypes.Ty

def namelessLabel : String := "unknown"

/- The label of the unknown type itself, written `none`, comes before all others. -/
def labelBefore : Option String → Option String → Bool
  | none, _ => true
  | some _, none => false
  | some a, some b => !(b < a)

def insertLabel (l : Option String) : List (Option String) → List (Option String)
  | [] => [l]
  | m :: ms => if labelBefore l m then l :: m :: ms else m :: insertLabel l ms

def sortLabels : List (Option String) → List (Option String)
  | [] => []
  | l :: ls => insertLabel l (sortLabels ls)

def joinLabels (separator : String) (labels : List (Option String)) : String :=
  separator.intercalate (labels.map (fun l => l.getD namelessLabel))

mutual
def name? (classes : ClassTable) : Ty → Option String
  | unknown => none
  | missing => none
  | reference _ => none
  | nominal c => c.bind classes.name?
  | collection c _ => c.bind classes.name?
  | tuple _ elements => some ("tuple(" ++ joinLabels ", " (labels classes elements) ++ ")")
  | union members => some (joinLabels " | " (sortLabels (labels classes members)))

def labels (classes : ClassTable) : List Ty → List (Option String)
  | [] => []
  | unknown :: ts => none :: labels classes ts
  | t :: ts => some ((name? classes t).getD namelessLabel) :: labels classes ts
end

def displayName (classes : ClassTable) (t : Ty) : String := (t.name? classes).getD namelessLabel

end GradualTypes.Ty
