/-! JSON values as they are read. Text escaped as half of a surrogate pair stands for no characters; such a
string has no content here, and only a reader that needs the content refuses it. -/
namespace GradualTypes

structure Numeral where
  negative : Bool
  whole : List Nat
  fraction : List Nat
  exponent : Int
  deriving DecidableEq, Repr

inductive Json where
  | null
  | bool (b : Bool)
  | number (n : Numeral)
  | text (content : Option String)
  | array (items : List Json)
  | object (fields : List (Option String × Json))
  deriving Repr

namespace Numeral

/- Reads digits into a significand as long as it stays below 2^64, and counts those that did. -/
def significand (s : Nat) : List Nat → Nat × Nat
  | [] => (s, 0)
  | d :: ds =>
    if s * 10 + d < 2 ^ 64 then
      let (v, n) := significand (s * 10 + d) ds
      (v, n + 1)
    else (s, 0)

/- Nearest number with at most 53 binary digits, a tie going to the even one. -/
def roundBinary (n : Nat) : Nat :=
  if n < Nat.pow 2 53 then n
  else
    let unit := Nat.pow 2 (n.log2 - 52)
    let below := n / unit
    let rest := n % unit
    if unit < 2 * rest ∨ (unit = 2 * rest ∧ below % 2 = 1) then (below + 1) * unit else below * unit

/- The number lies in the range of a 64-bit float, computed as significand times a power of ten. Whole
digits that the significand has no room for raise the power; such fraction digits are dropped. -/
def isFinite (n : Numeral) : Bool :=
  let (s, taken) := significand 0 n.whole
  let (s, places) := significand s n.fraction
  let power : Int := (n.whole.length - taken : Nat) - (places : Int) + n.exponent
  s = 0 || power < 0 ||
    (power ≤ 308 && roundBinary (roundBinary s * roundBinary (Nat.pow 10 power.toNat)) < Nat.pow 2 1024)

end Numeral

namespace Json

def string (s : String) : Json := text (some s)

def strings (ss : List String) : Json := array (ss.map string)

/- Most arrays and objects inside one another in a value that is read in full. -/
def depthLimit : Nat := 127

mutual
/- Every string has its content, every number is finite, and nothing lies too deep; `level` arrays and
objects are open already. -/
def isReadable (level : Nat) : Json → Bool
  | null => true
  | bool _ => true
  | number n => n.isFinite
  | text content => content.isSome
  | array items => level < depthLimit && allReadable (level + 1) items
  | object fields => level < depthLimit && fieldsReadable (level + 1) fields

def allReadable (level : Nat) : List Json → Bool
  | [] => true
  | v :: vs => isReadable level v && allReadable level vs

def fieldsReadable (level : Nat) : List (Option String × Json) → Bool
  | [] => true
  | (key, v) :: rest => key.isSome && isReadable level v && fieldsReadable level rest
end

end Json
end GradualTypes
