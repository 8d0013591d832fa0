import GradualTypes.Arguments
import GradualTypes.Report

/-! What a command line asks for: manifests are installed in order, queries are collected and answered.
Files are given as a function from their names to their texts. -/
namespace GradualTypes

inductive SessionError where
  | stubsUnreadable (path : String)
  | stubsMalformed (path : String)
  | stubsRefused (path : String) (cause : InstallError)
  | queriesUnreadable (path : String)
  | queriesMalformed (path : String)
  | queryRefused (e : QueryError)
  | nothingAsked
  deriving DecidableEq, Repr

inductive Cause where
  | message (s : String)
  -- A file is not there or holds no text.
  | unreadable
  -- A text does not hold the JSON it should.
  | malformed
  deriving DecidableEq, Repr

def Side.word : Side → String
  | .expected => "expected"
  | .actual => "actual"

def SessionError.causes : SessionError → List Cause
  | stubsUnreadable path => [.message ("failed to read stub manifest " ++ path), .unreadable]
  | stubsMalformed path =>
    [.message ("failed to parse stub manifest " ++ path), .message "manifest parse error", .malformed]
  | stubsRefused path cause =>
    [.message ("failed to install stub manifest " ++ path), .message cause.message]
  | queriesUnreadable path => [.message ("failed to read queries " ++ path), .unreadable]
  | queriesMalformed path => [.message ("failed to parse queries " ++ path), .malformed]
  | queryRefused e =>
    [.message ("query " ++ toString e.index ++ ": invalid " ++ e.side.word ++ " type"),
      .message e.cause.message]
  | nothingAsked => [.message "either --queries or both --expected and --actual are required"]

namespace Session

abbrev Files := String → Option String

def readStubs (files : Files) (path : String) : Except SessionError Manifest :=
  match files path with
  | none => .error (.stubsUnreadable path)
  | some text =>
    match Manifest.ofText? text with
    | none => .error (.stubsMalformed path)
    | some m => .ok m

def installStubs (u : Universe) (path : String) (m : Manifest) : Except SessionError Universe :=
  match u.install m with
  | (u, none) => .ok u
  | (_, some e) => .error (.stubsRefused path e)

def loadStubs (files : Files) (u : Universe) : List String → Except SessionError Universe
  | [] => .ok u
  | path :: rest => do
    let m ← readStubs files path
    let u ← installStubs u path m
    loadStubs files u rest

def readQueries (files : Files) (path : String) : Except SessionError (List Query) :=
  match files path with
  | none => .error (.queriesUnreadable path)
  | some text =>
    match Query.listOfText? text with
    | none => .error (.queriesMalformed path)
    | some qs => .ok qs

/- The queries of the file, or else the one query that the arguments spell. -/
def queries (files : Files) (a : Arguments) : Except SessionError (List Query) :=
  match a.queries, a.expected, a.actual with
  | some path, _, _ => readQueries files path
  | none, some e, some t => .ok [⟨TypeExpr.ofArgument e, TypeExpr.ofArgument t, none⟩]
  | none, _, _ => .error .nothingAsked

def answer (u : Universe) (qs : List Query) : Except SessionError (List Outcome) :=
  match u.answerAll qs with
  | .ok os => .ok os
  | .error e => .error (.queryRefused e)

def run (files : Files) (a : Arguments) : Except SessionError (List Outcome) := do
  let u ← loadStubs files .withBuiltins a.stubs
  let qs ← queries files a
  answer u qs

def output (format : OutputFormat) (colored : Bool) (os : List Outcome) : String :=
  match format with
  | .json => Report.json os
  | .text => Report.text colored os

def exitCode (os : List Outcome) : Nat := if os.all Outcome.passed then 0 else 1

end Session
end GradualTypes
