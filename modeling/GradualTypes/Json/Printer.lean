import GradualTypes.Json.Value

/-! Writing JSON, on one line or laid out with an indent of two. Strings are escaped only where they must
be. -/
namespace GradualTypes

def Numeral.spell (n : Numeral) : List Char :=
  let digit (d : Nat) : Char := Char.ofNat ('0'.toNat + d)
  (if n.negative then ['-'] else []) ++ n.whole.map digit ++
    (if n.fraction = [] then [] else '.' :: n.fraction.map digit) ++
    (if n.exponent = 0 then [] else 'e' :: (toString n.exponent).toList)

namespace Json

def hexChar (d : Nat) : Char := Char.ofNat (if d < 10 then 48 + d else 87 + d)

def escape (c : Char) : List Char :=
  if c = '"' then ['\\', '"']
  else if c = '\\' then ['\\', '\\']
  else if c = '\x08' then ['\\', 'b']
  else if c = '\x0c' then ['\\', 'f']
  else if c = '\n' then ['\\', 'n']
  else if c = '\r' then ['\\', 'r']
  else if c = '\t' then ['\\', 't']
  else if c.toNat < 0x20 then ['\\', 'u', '0', '0', hexChar (c.toNat / 16), hexChar (c.toNat % 16)]
  else [c]

def quote (s : String) : List Char := '"' :: (s.toList.flatMap escape ++ ['"'])

def spellContent (content : Option String) : List Char := quote (content.getD "")

def spellBool (b : Bool) : List Char := if b then "true".toList else "false".toList

mutual
def spell : Json → List Char
  | null => "null".toList
  | bool b => spellBool b
  | number n => n.spell
  | text content => spellContent content
  | array items => '[' :: (spellItems items ++ [']'])
  | object fields => '\x7b' :: (spellFields fields ++ ['\x7d'])

def spellItems : List Json → List Char
  | [] => []
  | [v] => spell v
  | v :: rest => spell v ++ ',' :: spellItems rest

def spellFields : List (Option String × Json) → List Char
  | [] => []
  | [(key, v)] => spellContent key ++ ':' :: spell v
  | (key, v) :: rest => spellContent key ++ ':' :: (spell v ++ ',' :: spellFields rest)
end

def compact (v : Json) : String := String.ofList v.spell

def newline (depth : Nat) : List Char := '\n' :: List.replicate (2 * depth) ' '

mutual
def layOut (depth : Nat) : Json → List Char
  | null => "null".toList
  | bool b => spellBool b
  | number n => n.spell
  | text content => spellContent content
  | array [] => ['[', ']']
  | array (v :: rest) => '[' :: (layOutItems (depth + 1) (v :: rest) ++ newline depth ++ [']'])
  | object [] => ['\x7b', '\x7d']
  | object (f :: rest) =>
    '\x7b' :: (layOutFields (depth + 1) (f :: rest) ++ newline depth ++ ['\x7d'])

def layOutItems (depth : Nat) : List Json → List Char
  | [] => []
  | [v] => newline depth ++ layOut depth v
  | v :: rest => newline depth ++ layOut depth v ++ ',' :: layOutItems depth rest

def layOutFields (depth : Nat) : List (Option String × Json) → List Char
  | [] => []
  | [(key, v)] => newline depth ++ spellContent key ++ ':' :: ' ' :: layOut depth v
  | (key, v) :: rest =>
    newline depth ++ spellContent key ++ ':' :: ' ' :: (layOut depth v ++ ',' :: layOutFields depth rest)
end

def pretty (v : Json) : String := String.ofList (v.layOut 0)

end Json
end GradualTypes
