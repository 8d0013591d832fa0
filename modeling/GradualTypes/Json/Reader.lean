import GradualTypes.Json.Value

/-! Reading JSON. A text is cut into tokens, and the tokens are put together with the open arrays and
objects kept in a list, so that values may nest to any depth. -/
namespace GradualTypes

inductive Token where
  | openArray
  | closeArray
  | openObject
  | closeObject
  | comma
  | colon
  | scalar (v : Json)
  | text (content : Option String)

namespace Numeral

def digit? (c : Char) : Option Nat := if c.isDigit then some (c.toNat - '0'.toNat) else none

def digits : List Char → List Nat × List Char
  | [] => ([], [])
  | c :: cs =>
    match digit? c with
    | none => ([], c :: cs)
    | some d => (d :: (digits cs).1, (digits cs).2)

def ofDigits (ds : List Nat) : Nat := ds.foldl (fun n d => n * 10 + d) 0

def ofExponent? : List Char → Option Int
  | [] => some 0
  | e :: cs =>
    if e = 'e' ∨ e = 'E' then
      let (sign, cs) : Int × List Char :=
        match cs with
        | '-' :: rest => (-1, rest)
        | '+' :: rest => (1, rest)
        | _ => (1, cs)
      match digits cs with
      | ([], _) => none
      | (ds, []) => some (sign * ofDigits ds)
      | _ => none
    else none

def ofUnsigned? (negative : Bool) (cs : List Char) : Option Numeral :=
  let (whole, cs) := digits cs
  if whole = [] ∨ (whole.head? = some 0 ∧ 1 < whole.length) then none
  else
    match cs with
    | '.' :: cs =>
      let (fraction, cs) := digits cs
      if fraction = [] then none
      else (ofExponent? cs).map (⟨negative, whole, fraction, ·⟩)
    | _ => (ofExponent? cs).map (⟨negative, whole, [], ·⟩)

def ofChars? : List Char → Option Numeral
  | '-' :: cs => ofUnsigned? true cs
  | cs => ofUnsigned? false cs

end Numeral

namespace Token

/- The inside of a string as 16-bit units and characters; two halves of a surrogate pair that follow each
other are one character. -/
def content? : List Nat → Option (List Char)
  | [] => some []
  | u :: rest =>
    if 0xD800 ≤ u ∧ u < 0xDC00 then
      match rest with
      | [] => none
      | v :: rest =>
        if 0xDC00 ≤ v ∧ v < 0xE000 then
          (content? rest).map (Char.ofNat (0x10000 + (u - 0xD800) * 0x400 + (v - 0xDC00)) :: ·)
        else none
    else if 0xDC00 ≤ u ∧ u < 0xE000 then none
    else (content? rest).map (Char.ofNat u :: ·)

def isBlank (c : Char) : Bool := c = ' ' || c = '\t' || c = '\n' || c = '\r'

/- Characters of numbers and of the three literal names. -/
def isBare (c : Char) : Bool := c.isAlphanum || c = '+' || c = '-' || c = '.'

def ofBare? (cs : List Char) : Option Token :=
  if cs = "null".toList then some (scalar .null)
  else if cs = "true".toList then some (scalar (.bool true))
  else if cs = "false".toList then some (scalar (.bool false))
  else (Numeral.ofChars? cs).map (fun n => scalar (.number n))

def ofMark? (c : Char) : Option Token :=
  if c = '[' then some openArray
  else if c = ']' then some closeArray
  else if c = '\x7b' then some openObject
  else if c = '\x7d' then some closeObject
  else if c = ',' then some comma
  else if c = ':' then some colon
  else none

def escaped? (c : Char) : Option Char :=
  if c = '"' then some '"'
  else if c = '\\' then some '\\'
  else if c = '/' then some '/'
  else if c = 'b' then some '\x08'
  else if c = 'f' then some '\x0c'
  else if c = 'n' then some '\n'
  else if c = 'r' then some '\r'
  else if c = 't' then some '\t'
  else none

def hexDigit? (c : Char) : Option Nat :=
  if c.isDigit then some (c.toNat - '0'.toNat)
  else if 'a' ≤ c ∧ c ≤ 'f' then some (c.toNat - 'a'.toNat + 10)
  else if 'A' ≤ c ∧ c ≤ 'F' then some (c.toNat - 'A'.toNat + 10)
  else none

/- Where in a text the scan stands; what was met last comes first. -/
inductive Mode where
  | between
  | bare (met : List Char)
  | inText (met : List Nat)
  | afterBackslash (met : List Nat)
  | inHex (met : List Nat) (value : Nat) (left : Nat)

structure Scan where
  mode : Mode
  -- The newest token first.
  tokens : List Token

namespace Scan

def start : Scan := ⟨.between, []⟩

def stepBetween (tokens : List Token) (c : Char) : Option Scan :=
  if isBlank c then some ⟨.between, tokens⟩
  else if c = '"' then some ⟨.inText [], tokens⟩
  else if isBare c then some ⟨.bare [c], tokens⟩
  else (ofMark? c).map (fun t => ⟨.between, t :: tokens⟩)

def step (s : Scan) (c : Char) : Option Scan :=
  match s.mode with
  | .between => stepBetween s.tokens c
  | .bare met =>
    if isBare c then some ⟨.bare (c :: met), s.tokens⟩
    else (ofBare? met.reverse).bind (fun t => stepBetween (t :: s.tokens) c)
  | .inText met =>
    if c = '"' then some ⟨.between, .text ((content? met.reverse).map String.ofList) :: s.tokens⟩
    else if c = '\\' then some ⟨.afterBackslash met, s.tokens⟩
    else if c.toNat < 0x20 then none
    else some ⟨.inText (c.toNat :: met), s.tokens⟩
  | .afterBackslash met =>
    if c = 'u' then some ⟨.inHex met 0 4, s.tokens⟩
    else (escaped? c).map (fun e => ⟨.inText (e.toNat :: met), s.tokens⟩)
  | .inHex met value left =>
    (hexDigit? c).map (fun d =>
      let value := value * 16 + d
      if left ≤ 1 then ⟨.inText (value :: met), s.tokens⟩ else ⟨.inHex met value (left - 1), s.tokens⟩)

def finish? (s : Scan) : Option (List Token) :=
  match s.mode with
  | .between => some s.tokens.reverse
  | .bare met => (ofBare? met.reverse).map (fun t => (t :: s.tokens).reverse)
  | _ => none

end Scan

def ofText? (cs : List Char) : Option (List Token) := (cs.foldlM Scan.step Scan.start).bind Scan.finish?

end Token

namespace Json

/- An open array or object; what was met last comes first. -/
inductive Frame where
  | items (met : List Json)
  | fields (met : List (Option String × Json)) (key : Option String)

/- What a reader waits for, inside the open arrays and objects. -/
inductive Reading where
  | value (outer : List Frame)
  | firstItem (outer : List Frame)
  | firstKey (outer : List Frame)
  | nextKey (met : List (Option String × Json)) (outer : List Frame)
  | colon (met : List (Option String × Json)) (key : Option String) (outer : List Frame)
  | ended (v : Json) (outer : List Frame)

namespace Reading

def stepValue (outer : List Frame) : Token → Option Reading
  | .openArray => some (firstItem outer)
  | .openObject => some (firstKey outer)
  | .scalar v => some (ended v outer)
  | .text content => some (ended (text content) outer)
  | _ => none

def step : Reading → Token → Option Reading
  | value outer, t => stepValue outer t
  | firstItem outer, .closeArray => some (ended (array []) outer)
  | firstItem outer, t => stepValue (.items [] :: outer) t
  | firstKey outer, .closeObject => some (ended (object []) outer)
  | firstKey outer, .text key => some (colon [] key outer)
  | nextKey met outer, .text key => some (colon met key outer)
  | colon met key outer, .colon => some (value (.fields met key :: outer))
  | ended v (.items met :: outer), .comma => some (value (.items (v :: met) :: outer))
  | ended v (.items met :: outer), .closeArray => some (ended (array (v :: met).reverse) outer)
  | ended v (.fields met key :: outer), .comma => some (nextKey ((key, v) :: met) outer)
  | ended v (.fields met key :: outer), .closeObject =>
    some (ended (object ((key, v) :: met).reverse) outer)
  | _, _ => none

def finish? : Reading → Option Json
  | ended v [] => some v
  | _ => none

end Reading

def ofTokens? (ts : List Token) : Option Json := (ts.foldlM Reading.step (.value [])).bind Reading.finish?

def parse? (s : String) : Option Json := (Token.ofText? s.toList).bind ofTokens?

end Json
end GradualTypes
