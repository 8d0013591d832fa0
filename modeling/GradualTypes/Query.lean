import GradualTypes.Record
import GradualTypes.Universe

/-! Questions to a universe. A query may carry the answer its author expects; it fails only if the answer
it gets is another one. -/
namespace GradualTypes

structure Query where
  expected : TypeExpr
  actual : TypeExpr
  expect : Option Bool
  deriving Repr

structure Outcome where
  expected : String
  actual : String
  matched : Bool
  expect : Option Bool
  deriving DecidableEq, Repr

inductive Side where
  | expected
  | actual
  deriving DecidableEq, Repr

structure QueryError where
  index : Nat
  side : Side
  cause : LowerError
  deriving DecidableEq, Repr

namespace Query

def expectField : Option Bool → List (Option String × Json)
  | none => []
  | some b => [(some "expect", .bool b)]

def toJson (q : Query) : Json :=
  .object ([(some "expected", q.expected.toJson), (some "actual", q.actual.toJson)] ++
    expectField q.expect)

/- Types lie inside two values, the list of queries and the query. -/
def ofJson? (v : Json) : Option Query := do
  match ← v.record? ["expected", "actual", "expect"] with
  | [expected, actual, expect] =>
    some {
      expected := ← Json.orDefault? (TypeExpr.ofJson? 2) .unknown expected
      actual := ← Json.orDefault? (TypeExpr.ofJson? 2) .unknown actual
      expect := ← Json.orDefault? (Json.optional? Json.bool?) none expect }
  | _ => none

def listOfText? (s : String) : Option (List Query) :=
  (Json.parse? s).bind (Json.listOf? ofJson?)

def listToText (qs : List Query) : String := (Json.array (qs.map toJson)).compact

end Query

namespace Outcome

def passed (o : Outcome) : Bool :=
  match o.expect with
  | none => true
  | some b => b == o.matched

def toJson (o : Outcome) : Json :=
  .object ([
    (some "expected", .string o.expected),
    (some "actual", .string o.actual),
    (some "matched", .bool o.matched)] ++ Query.expectField o.expect)

end Outcome

namespace Universe

def lowerSide (u : Universe) (index : Nat) (side : Side) (e : TypeExpr) : Except QueryError Ty :=
  match u.lower e with
  | .ok t => .ok t
  | .error cause => .error ⟨index, side, cause⟩

def answer (u : Universe) (index : Nat) (q : Query) : Except QueryError Outcome := do
  let e ← u.lowerSide index .expected q.expected
  let a ← u.lowerSide index .actual q.actual
  .ok ⟨e.displayName u.classes, a.displayName u.classes, u.context.isMatch e a, q.expect⟩

def answerFrom (u : Universe) (index : Nat) : List Query → Except QueryError (List Outcome)
  | [] => .ok []
  | q :: rest => do
    let o ← u.answer index q
    let os ← u.answerFrom (index + 1) rest
    .ok (o :: os)

/- Answers queries in order; the first that cannot be asked stops all. -/
def answerAll (u : Universe) (qs : List Query) : Except QueryError (List Outcome) := u.answerFrom 0 qs

end Universe
end GradualTypes
