import GradualTypes.Query

/-! Reports of outcomes: a line for each, a summary, and a JSON form. -/
namespace GradualTypes

inductive Ink where
  | green
  | red
  | yellowBold
  deriving DecidableEq, Repr

def Ink.code : Ink → String
  | green => "32"
  | red => "31"
  | yellowBold => "1;33"

namespace Report

def paint (colored : Bool) (ink : Ink) (s : String) : String :=
  if colored then "\x1b[" ++ ink.code ++ "m" ++ s ++ "\x1b[0m" else s

def verdictWord (matched : Bool) : String := if matched then "match" else "mismatch"

def verdict (colored matched : Bool) : String :=
  paint colored (if matched then .green else .red) (verdictWord matched)

def remark (colored : Bool) (o : Outcome) : String :=
  if o.passed then ""
  else " " ++ paint colored .yellowBold ("(expected " ++ verdictWord (!o.matched) ++ ")")

def line (colored : Bool) (o : Outcome) : String :=
  verdict colored o.matched ++ ": " ++ o.expected ++ " <- " ++ o.actual ++ remark colored o

def text (colored : Bool) (os : List Outcome) : String := "\n".intercalate (os.map (line colored))

def failures (os : List Outcome) : Nat := (os.filter (fun o => !o.passed)).length

def summary (colored : Bool) (os : List Outcome) : String :=
  let failed := failures os
  let noun := if os.length = 1 then "query" else "queries"
  paint (colored && 0 < failed) .red
    (toString os.length ++ " " ++ noun ++ ", " ++ toString failed ++ " failed")

def json (os : List Outcome) : String := (Json.array (os.map Outcome.toJson)).pretty

end Report
end GradualTypes
