import GradualTypes.Json.Value

/-! Records in JSON. A record is an object with some known keys, or an array of their values in the order
of declaration. Unknown keys do not count, whatever they hold; a known key stands once. -/
namespace GradualTypes.Json

def text? : Json → Option String
  | text content => content
  | _ => none

def bool? : Json → Option Bool
  | bool b => some b
  | _ => none

/- Null stands for what is left out. -/
def optional? (read : Json → Option α) : Json → Option (Option α)
  | null => some none
  | v => (read v).map some

def listOf? (read : Json → Option α) : Json → Option (List α)
  | array items => items.mapM read
  | _ => none

def fieldOf? (fields : List (Option String × Json)) (key : String) : Option (Option Json) :=
  match fields.filter (fun f => f.1 == some key) with
  | [] => some none
  | [f] => some (some f.2)
  | _ => none

/- The values of the known keys in their order, absent where a key is left out. -/
def record? (keys : List String) : Json → Option (List (Option Json))
  | array items =>
    if items.length ≤ keys.length then
      some (items.map some ++ List.replicate (keys.length - items.length) none)
    else none
  | object fields =>
    if fields.all (fun f => f.1.isSome) then keys.mapM (fieldOf? fields) else none
  | _ => none

def orDefault? (read : Json → Option α) (default : α) : Option Json → Option α
  | none => some default
  | some v => read v

end GradualTypes.Json
