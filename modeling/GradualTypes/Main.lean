import GradualTypes.Session

/-! The command line: reads the files that are named, answers, and writes the report. -/
namespace GradualTypes.CommandLine

def readText (path : String) : IO (Option String) := do
  try
    let text ← IO.FS.readFile path
    pure (some text)
  catch _ => pure none

def readAll : List String → IO (List (String × String))
  | [] => pure []
  | path :: rest => do
    let text ← readText path
    let others ← readAll rest
    pure (match text with
      | some t => (path, t) :: others
      | none => others)

def usageText : UsageError → String
  | .missingRequired => "error: required arguments are missing"
  | .conflict => "error: arguments cannot be used together or twice"
  | .unknownArgument => "error: unexpected argument"
  | .invalidValue => "error: invalid or missing value"
  | .tooManyValues => "error: unexpected value for a flag"
  | .help =>
    "Usage: [--stubs <FILE>...] (--queries <FILE> | --expected <TYPE> --actual <TYPE>) " ++
      "[--format text|json] [--no-color]"
  | .version => "0.1.0"

def causeText : Cause → String
  | .message s => s
  | .unreadable => "the file cannot be read"
  | .malformed => "the text is not the JSON expected here"

def report (a : Arguments) (os : List Outcome) : IO UInt32 := do
  match a.format with
  | .json => IO.println (Report.json os)
  | .text =>
    let terminal ← (← IO.getStdout).isTty
    let colored := !a.noColor && terminal
    if !os.isEmpty then IO.println (Report.text colored os)
    IO.eprintln (Report.summary colored os)
  pure (Session.exitCode os).toUInt32

def answer (arguments : List String) : IO UInt32 := do
  match Arguments.parse arguments with
  | .error .help => IO.println (usageText .help); pure 0
  | .error .version => IO.println (usageText .version); pure 0
  | .error e => IO.eprintln (usageText e); pure 2
  | .ok a =>
    let texts ← readAll (a.stubs ++ a.queries.toList)
    match Session.run (fun path => texts.lookup path) a with
    | .error e =>
      IO.eprintln ("Error: " ++ ": ".intercalate (e.causes.map causeText))
      pure 1
    | .ok os => report a os

end GradualTypes.CommandLine

def main (arguments : List String) : IO UInt32 := GradualTypes.CommandLine.answer arguments
