/-! The format of log lines, chosen by a word in any case of letters. The words are ASCII, and no other
letter becomes one of theirs in lower case. -/
namespace GradualTypes

inductive LogFormat where
  | text
  | tree
  | json
  deriving DecidableEq, Repr

def LogFormat.ofWord (word : String) : LogFormat :=
  let w := word.toList.map Char.toLower
  if w = "tree".toList then tree
  else if w = "json".toList then json
  else text

end GradualTypes
