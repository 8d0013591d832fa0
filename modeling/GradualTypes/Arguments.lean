/-! Command line arguments. Arguments are read from left to right. An option waits for its values until
the next option comes, and is settled then; which options go together is looked at last. -/
namespace GradualTypes

inductive OutputFormat where
  | text
  | json
  deriving DecidableEq, Repr

structure Arguments where
  -- Manifests to install after the builtin classes.
  stubs : List String
  queries : Option String
  expected : Option String
  actual : Option String
  format : OutputFormat
  noColor : Bool
  deriving DecidableEq, Repr

inductive UsageError where
  | missingRequired
  | conflict
  | unknownArgument
  | invalidValue
  | tooManyValues
  | help
  | version
  deriving DecidableEq, Repr

inductive ValueOption where
  | stubs
  | queries
  | expected
  | actual
  | format
  deriving DecidableEq, Repr

def OutputFormat.ofWord? (word : String) : Option OutputFormat :=
  if word = "text" then some text
  else if word = "json" then some json
  else none

def ValueOption.ofName? (name : String) : Option ValueOption :=
  if name = "stubs" then some stubs
  else if name = "queries" then some queries
  else if name = "expected" then some expected
  else if name = "actual" then some actual
  else if name = "format" then some format
  else none

namespace Arguments

structure Draft where
  stubs : List String
  queries : Option String
  expected : Option String
  actual : Option String
  format : Option OutputFormat
  noColor : Bool
  deriving DecidableEq, Repr

def Draft.empty : Draft := ⟨[], none, none, none, none, false⟩

structure Scan where
  draft : Draft
  -- The option that is not settled yet, and its values.
  waiting : Option (ValueOption × List String)
  deriving DecidableEq, Repr

/- A path has to be something. -/
def storePath (d : Draft) (given : Option String) (path : String) (put : Draft → String → Draft) :
    Except UsageError Draft :=
  if given.isSome then .error .conflict
  else if path = "" then .error .invalidValue
  else .ok (put d path)

def storeText (d : Draft) (given : Option String) (s : String) (put : Draft → String → Draft) :
    Except UsageError Draft :=
  if given.isSome then .error .conflict else .ok (put d s)

/- Gives an option its values. Only stubs may be given again. -/
def store (d : Draft) (o : ValueOption) : List String → Except UsageError Draft
  | [] => .error .invalidValue
  | v :: rest =>
    match o with
    | .stubs =>
      if (v :: rest).any (fun p => p = "") then .error .invalidValue
      else .ok { d with stubs := d.stubs ++ v :: rest }
    | .queries => storePath d d.queries v (fun d v => { d with queries := some v })
    | .expected => storeText d d.expected v (fun d v => { d with expected := some v })
    | .actual => storeText d d.actual v (fun d v => { d with actual := some v })
    | .format =>
      if d.format.isSome then .error .conflict
      else
        match OutputFormat.ofWord? v with
        | none => .error .invalidValue
        | some f => .ok { d with format := some f }

def settle (s : Scan) : Except UsageError Draft :=
  match s.waiting with
  | none => .ok s.draft
  | some (o, values) => store s.draft o values

/- A value that stands by itself goes to the option that waits for one. -/
def takeValue (s : Scan) (value : String) : Except UsageError Scan :=
  match s.waiting with
  | some (.stubs, values) => .ok ⟨s.draft, some (.stubs, values ++ [value])⟩
  | some (o, []) => .ok ⟨s.draft, some (o, [value])⟩
  | _ => .error .unknownArgument

def takeFlag (s : Scan) (name : String) : Except UsageError Scan :=
  if name = "no-color" then do
    let d ← settle s
    if d.noColor then .error .conflict else .ok ⟨{ d with noColor := true }, none⟩
  else if name = "help" then do
    let _ ← settle s
    .error .help
  else if name = "version" then do
    let _ ← settle s
    .error .version
  else .error .unknownArgument

def isFlag (name : String) : Bool := name = "no-color" || name = "help" || name = "version"

/- An argument that begins with two dashes; what follows an equals sign is its only value. -/
def takeLong (s : Scan) (name : String) (value : Option String) : Except UsageError Scan :=
  match ValueOption.ofName? name, value with
  | some o, none => do
    let d ← settle s
    .ok ⟨d, some (o, [])⟩
  | some o, some v => do
    let d ← settle s
    let d ← store d o [v]
    .ok ⟨d, none⟩
  | none, none => takeFlag s name
  | none, some _ => .error (if isFlag name then .tooManyValues else .unknownArgument)

/- An argument that begins with one dash; its first letter decides. -/
def takeShort (s : Scan) (letter : Char) : Except UsageError Scan :=
  if letter = 'h' then takeFlag s "help"
  else if letter = 'V' then takeFlag s "version"
  else .error .unknownArgument

def splitValue (cs : List Char) : String × Option String :=
  let name := cs.takeWhile (fun c => c != '=')
  match cs.dropWhile (fun c => c != '=') with
  | [] => (String.ofList name, none)
  | _ :: value => (String.ofList name, some (String.ofList value))

def takeArgument (s : Scan) (argument : String) : Except UsageError Scan :=
  match argument.toList with
  | '-' :: '-' :: cs => takeLong s (splitValue cs).1 (splitValue cs).2
  | '-' :: letter :: _ => takeShort s letter
  | _ => takeValue s argument

/- Two dashes by themselves end the options; nothing may follow them. -/
def scan (s : Scan) : List String → Except UsageError Draft
  | [] => settle s
  | argument :: rest =>
    if argument = "--" then
      if rest = [] then settle s else .error .unknownArgument
    else do
      let s ← takeArgument s argument
      scan s rest

/- One of the queries and the expected type is given and not both. The expected type needs the actual
one; the actual type is of no use alone, but does no harm beside queries. -/
def complete (d : Draft) : Except UsageError Arguments :=
  if d.queries.isSome && d.expected.isSome then .error .conflict
  else if d.queries.isNone && (d.expected.isNone || d.actual.isNone) then .error .missingRequired
  else .ok ⟨d.stubs, d.queries, d.expected, d.actual, d.format.getD .text, d.noColor⟩

def parse (arguments : List String) : Except UsageError Arguments := do
  let d ← scan ⟨.empty, none⟩ arguments
  complete d

end Arguments
end GradualTypes
