import GradualTypes.Proofs.ArgumentScan
import GradualTypes.Session
import Mathlib.Data.List.Infix

/-! Which input a command line asks about. A command line that is accepted names a queries file and no expected
type, or an expected and an actual type and no queries file, and what it names is what is asked. An actual type
beside a queries file is accepted too; it is then read by nothing. -/
namespace GradualTypes

theorem ValueOption.nameInj {o p : ValueOption} (same : p.name = o.name) : p = o := by
  have named := nameIff.mpr same
  rw [nameIff.mpr rfl] at named
  exact Option.some.inj named

def OutputFormat.word : OutputFormat → String
  | text => "text"
  | json => "json"

theorem OutputFormat.wordOf {v : String} {f : OutputFormat} (named : ofWord? v = some f) : f.word = v := by
  unfold ofWord? at named
  split_ifs at named with text json
  · cases named; exact text.symm
  · cases named; exact json.symm

namespace Arguments

variable {d e stored : Draft} {a : Arguments} {o p : ValueOption} {values words rest : List String} {u v : String}

theorem sameSplit {cs cs' : List Char} {w w' : String} (same : w = w') (chars : w.toList = '-' :: '-' :: cs)
    (chars' : w'.toList = '-' :: '-' :: cs') : splitValue cs = splitValue cs' := by
  have tails : cs = cs' := by
    rw [same, chars'] at chars
    simpa using chars.symm
  rw [tails]

@[simp] theorem flagEq : p.flag = o.flag ↔ p = o := by
  constructor
  · intro same
    have split := sameSplit same flagChars flagChars
    rw [splitOfName, splitOfName] at split
    exact ValueOption.nameInj (congrArg Prod.fst split)
  · intro same
    rw [same]

@[simp] theorem joinedEq : p.joined u = o.joined v ↔ p = o ∧ u = v := by
  constructor
  · intro same
    have split := sameSplit same joinedChars joinedChars
    rw [splitOfBoth, splitOfBoth] at split
    exact ⟨ValueOption.nameInj (congrArg Prod.fst split), Option.some.inj (congrArg Prod.snd split)⟩
  · intro same
    rw [same.1, same.2]

@[simp] theorem flagNotJoined : p.flag ≠ o.joined v := by
  intro same
  have split := sameSplit same flagChars joinedChars
  rw [splitOfName, splitOfBoth] at split
  cases congrArg Prod.snd split

@[simp] theorem joinedNotFlag : o.joined v ≠ p.flag := flagNotJoined.symm

@[simp] theorem flagNotColorless : p.flag ≠ "--no-color" := by
  cases p <;> decide

@[simp] theorem joinedNotColorless : p.joined u ≠ "--no-color" := by
  intro same
  have split := sameSplit same joinedChars (show _ = '-' :: '-' :: "no-color".toList from rfl)
  rw [splitOfBoth] at split
  cases congrArg Prod.snd split

/- The option is among the words, with a value of its own or not. -/
def Given (o : ValueOption) (words : List String) : Prop := o.flag ∈ words ∨ ∃ v, o.joined v ∈ words

/- The words give the option this value, as the word that follows or in one word with the option. -/
def Gives (o : ValueOption) (v : String) (words : List String) : Prop :=
  [o.flag, v] <:+: words ∨ o.joined v ∈ words

theorem givenMark : ¬ Given p ["--"] := by
  simp [Given]

theorem givesMark : ¬ Gives p u ["--"] := by
  simp [Gives, List.infix_cons_iff, List.cons_prefix_cons]

theorem flagApart (plain : ∀ v ∈ values, Plain v) : o.flag ∉ values :=
  fun inside => flagNotPlain (plain _ inside)

theorem joinedApart (plain : ∀ v ∈ values, Plain v) : o.joined u ∉ values :=
  fun inside => joinedNotPlain (plain _ inside)

/- An option stands nowhere among plain words, nor does it end them. -/
theorem infixBehind (plain : ∀ v ∈ values, Plain v) : [o.flag, u] <:+: values ++ rest ↔ [o.flag, u] <:+: rest := by
  induction values with
  | nil => simp
  | cons first values ih =>
    have other : o.flag ≠ first := fun same => flagNotPlain (same ▸ plain first List.mem_cons_self)
    rw [List.cons_append, List.infix_cons_iff, ih fun v inside => plain v (List.mem_cons_of_mem _ inside)]
    simp [List.cons_prefix_cons, other]

theorem givenApart (plain : ∀ v ∈ values, Plain v) :
    Given p (o.flag :: values ++ rest) ↔ p = o ∨ Given p rest := by
  simp [Given, flagApart plain, joinedApart plain, or_assoc]

theorem givenJoined : Given p (o.joined v :: rest) ↔ p = o ∨ Given p rest := by
  simp only [Given, List.mem_cons, flagNotJoined, joinedEq, false_or, exists_or, exists_and_left, exists_eq,
    and_true]
  exact or_left_comm

theorem givenColorless : Given p ("--no-color" :: rest) ↔ Given p rest := by
  simp [Given]

theorem givesApart (plain : ∀ w ∈ v :: values, Plain w) :
    Gives p u (o.flag :: (v :: values) ++ rest) ↔ p = o ∧ u = v ∨ Gives p u rest := by
  have absent : p.joined u ∉ v :: values := joinedApart plain
  have behind : p.joined u ∈ o.flag :: (v :: values ++ rest) ↔ p.joined u ∈ rest := by
    rw [List.mem_cons, List.mem_append]
    simp only [joinedNotFlag, absent, false_or]
  have front : [p.flag, u] <:+: o.flag :: (v :: values ++ rest) ↔ p = o ∧ u = v ∨ [p.flag, u] <:+: rest := by
    rw [List.infix_cons_iff, infixBehind plain]
    simp [List.cons_prefix_cons]
  rw [Gives, List.cons_append, front, behind, or_assoc, Gives]

theorem givesJoined : Gives p u (o.joined v :: rest) ↔ p = o ∧ u = v ∨ Gives p u rest := by
  simp only [Gives, List.infix_cons_iff, List.cons_prefix_cons, flagNotJoined, List.mem_cons, joinedEq, false_and,
    false_or]
  exact or_left_comm

theorem givesColorless : Gives p u ("--no-color" :: rest) ↔ Gives p u rest := by
  simp [Gives, List.infix_cons_iff, List.cons_prefix_cons]

/- What an option has been given so far. -/
def Draft.held (d : Draft) : ValueOption → List String
  | .stubs => d.stubs
  | .queries => d.queries.toList
  | .expected => d.expected.toList
  | .actual => d.actual.toList
  | .format => (d.format.map OutputFormat.word).toList

theorem storedSome (put : store d o values = .ok stored) : ∃ v more, values = v :: more := by
  cases values with
  | nil => simp [store] at put
  | cons v more => exact ⟨v, more, rfl⟩

theorem storedPath {given : Option String} {put : Draft → String → Draft}
    (ok : storePath d given v put = .ok stored) : given = none ∧ stored = put d v := by
  unfold storePath at ok
  split_ifs at ok with again blank
  cases ok
  exact ⟨by simpa using again, rfl⟩

theorem storedText {given : Option String} {put : Draft → String → Draft}
    (ok : storeText d given v put = .ok stored) : given = none ∧ stored = put d v := by
  unfold storeText at ok
  split_ifs at ok with again
  cases ok
  exact ⟨by simpa using again, rfl⟩

theorem storedFormat (ok : store d .format (v :: values) = .ok stored) :
    d.format = none ∧ ∃ f, f.word = v ∧ stored = { d with format := some f } := by
  simp only [store] at ok
  split_ifs at ok with again
  cases named : OutputFormat.ofWord? v with
  | none => simp [named] at ok
  | some f =>
    simp only [named, Except.ok.injEq] at ok
    exact ⟨by simpa using again, f, OutputFormat.wordOf named, ok.symm⟩

theorem storedHeld (single : o = .stubs ∨ values.length ≤ 1) (put : store d o values = .ok stored)
    (p : ValueOption) : stored.held p = if p = o then d.held p ++ values else d.held p := by
  obtain ⟨v, more, rfl⟩ := storedSome put
  -- Stubs are added to those before; the others had no value yet and take one.
  cases o with
  | stubs =>
    simp only [store] at put
    split_ifs at put
    cases put
    cases p <;> simp [Draft.held]
  | queries =>
    simp only [store] at put
    obtain ⟨free, rfl⟩ := storedPath put
    have alone : more = [] := by simpa using single
    cases p <;> simp [Draft.held, free, alone]
  | expected =>
    simp only [store] at put
    obtain ⟨free, rfl⟩ := storedText put
    have alone : more = [] := by simpa using single
    cases p <;> simp [Draft.held, free, alone]
  | actual =>
    simp only [store] at put
    obtain ⟨free, rfl⟩ := storedText put
    have alone : more = [] := by simpa using single
    cases p <;> simp [Draft.held, free, alone]
  | format =>
    obtain ⟨free, f, rfl, rfl⟩ := storedFormat put
    have alone : more = [] := by simpa using single
    cases p <;> simp [Draft.held, free, alone]

theorem storedMember (several : p ≠ .stubs) (single : o = .stubs ∨ (v :: values).length ≤ 1)
    (put : store d o (v :: values) = .ok stored) : u ∈ stored.held p ↔ u ∈ d.held p ∨ p = o ∧ u = v := by
  rw [storedHeld single put]
  by_cases same : p = o
  · subst same
    have alone : values = [] := by simpa [several] using single
    simp [alone]
  · simp [same]

theorem readsGiven (reads : Reads d words e) : Given p words ↔ ∃ u, Gives p u words := by
  induction reads with
  | done d => simp [Given, Gives]
  | marked d => simp [givenMark, givesMark]
  | apart fits put tail ih =>
    obtain ⟨v, more, rfl⟩ := storedSome put
    simp only [givenApart fits.plain, givesApart fits.plain, exists_or, exists_and_left, exists_eq, and_true, ih]
  | joined put tail ih =>
    simp only [givenJoined, givesJoined, exists_or, exists_and_left, exists_eq, and_true, ih]
  | colorless fresh tail ih => simp only [givenColorless, givesColorless, ih]

theorem readsHeld (several : p ≠ .stubs) (reads : Reads d words e) :
    u ∈ e.held p ↔ u ∈ d.held p ∨ Gives p u words := by
  induction reads with
  | done d => simp [Gives]
  | marked d => simp [givesMark]
  | apart fits put tail ih =>
    obtain ⟨v, more, rfl⟩ := storedSome put
    rw [ih, storedMember several fits.single put, givesApart fits.plain, or_assoc]
  | joined put tail ih =>
    rw [ih, storedMember several (.inr (by simp)) put, givesJoined, or_assoc]
  | colorless fresh tail ih =>
    rw [ih, givesColorless]
    cases p <;> rfl

theorem completeIff : complete d = .ok a ↔
    (d.queries.isSome = true ∧ d.expected = none ∨
      d.queries = none ∧ d.expected.isSome = true ∧ d.actual.isSome = true) ∧
    a = ⟨d.stubs, d.queries, d.expected, d.actual, d.format.getD .text, d.noColor⟩ := by
  unfold complete
  cases d.queries <;> cases d.expected <;> cases d.actual <;> simp [eq_comm]

theorem parseIff : parse words = .ok a ↔ ∃ d, Reads .empty words d ∧ complete d = .ok a := by
  simp only [parse, boundIff, scanExact]

/- What is accepted has the values that the words give. -/
structure Holds (a : Arguments) (words : List String) : Prop where
  given : ∀ o, Given o words ↔ ∃ v, Gives o v words
  queries : ∀ v, a.queries = some v ↔ Gives .queries v words
  expected : ∀ v, a.expected = some v ↔ Gives .expected v words
  actual : ∀ v, a.actual = some v ↔ Gives .actual v words
  choice : a.queries.isSome = true ∧ a.expected = none ∨
    a.queries = none ∧ a.expected.isSome = true ∧ a.actual.isSome = true

theorem parsedHolds (accepted : parse words = .ok a) : a.Holds words := by
  obtain ⟨d, reads, completed⟩ := parseIff.mp accepted
  obtain ⟨choice, rfl⟩ := completeIff.mp completed
  exact {
    given := fun o => readsGiven reads
    queries := fun v => by simpa [Draft.held, Draft.empty] using readsHeld (p := .queries) (u := v) (by simp) reads
    expected := fun v => by simpa [Draft.held, Draft.empty] using readsHeld (p := .expected) (u := v) (by simp) reads
    actual := fun v => by simpa [Draft.held, Draft.empty] using readsHeld (p := .actual) (u := v) (by simp) reads
    choice := choice }

namespace Holds

variable (holds : a.Holds words)
include holds

theorem givenIff {field : Option String} (held : ∀ v, field = some v ↔ Gives o v words) :
    Given o words ↔ field.isSome = true := by
  simp only [holds.given, ← held, Option.isSome_iff_exists]

theorem askedFile {path : String} (gives : Gives .queries path words) (files : Session.Files) :
    Session.queries files a = Session.readQueries files path := by
  simp only [Session.queries, (holds.queries path).mpr gives]

theorem askedPair {expected actual : String} (left : Gives .expected expected words)
    (right : Gives .actual actual words) (files : Session.Files) :
    Session.queries files a = .ok [⟨TypeExpr.ofArgument expected, TypeExpr.ofArgument actual, none⟩] := by
  have given := (holds.expected expected).mpr left
  have free : a.queries = none := by
    rcases holds.choice with ⟨-, without⟩ | ⟨free, -⟩
    · simp [without] at given
    · exact free
  simp only [Session.queries, free, given, (holds.actual actual).mpr right]

theorem asks (files : Session.Files) : Session.queries files a ≠ .error .nothingAsked := by
  rcases holds.choice with ⟨file, -⟩ | ⟨-, left, right⟩
  · obtain ⟨path, named⟩ := Option.isSome_iff_exists.mp file
    rw [holds.askedFile ((holds.queries path).mp named)]
    unfold Session.readQueries
    split
    · simp
    · split <;> simp
  · obtain ⟨expected, left⟩ := Option.isSome_iff_exists.mp left
    obtain ⟨actual, right⟩ := Option.isSome_iff_exists.mp right
    rw [holds.askedPair ((holds.expected expected).mp left) ((holds.actual actual).mp right)]
    simp

end Holds

/- A queries file alone, or both types without one. -/
def OneInput (words : List String) : Prop :=
  Given .queries words ∧ ¬ Given .expected words ∧ ¬ Given .actual words ∨
    ¬ Given .queries words ∧ Given .expected words ∧ Given .actual words

/-- Whatever command line is accepted, each option in it has a value, a queries file does not go with an
expected type, and the file or the two types are what is asked, so that something is asked always. There is
one input exactly if no actual type is given beside a queries file; where one is, the file alone counts. -/
theorem inputAsked (words : List String) (a : Arguments) (accepted : parse words = .ok a) :
    (∀ o, Given o words → ∃ v, Gives o v words) ∧
    (OneInput words ↔ ¬ (Given .queries words ∧ Given .actual words)) ∧
    (Given .queries words → ¬ Given .expected words) ∧
    (∀ path, Gives .queries path words → ∀ files, Session.queries files a = Session.readQueries files path) ∧
    (∀ expected actual, Gives .expected expected words → Gives .actual actual words →
      ∀ files, Session.queries files a =
        .ok [⟨TypeExpr.ofArgument expected, TypeExpr.ofArgument actual, none⟩]) ∧
    ∀ files, Session.queries files a ≠ .error .nothingAsked := by
  have holds := parsedHolds accepted
  refine ⟨fun o => (holds.given o).mp, ?_, ?_, fun path => holds.askedFile, fun e t => holds.askedPair, holds.asks⟩
  · unfold OneInput
    rw [holds.givenIff holds.queries, holds.givenIff holds.expected, holds.givenIff holds.actual]
    rcases holds.choice with ⟨file, without⟩ | ⟨free, left, right⟩
    · simp [file, without]
    · simp [free, left, right]
  · rw [holds.givenIff holds.queries, holds.givenIff holds.expected]
    rcases holds.choice with ⟨-, without⟩ | ⟨free, -⟩
    · simp [without]
    · simp [free]

theorem pairAsked :
    parse ["--actual=int", "--expected", "float"] =
      .ok ⟨[], none, some "float", some "int", .text, false⟩ ∧
    OneInput ["--actual=int", "--expected", "float"] ∧
    ∀ files, Session.queries files ⟨[], none, some "float", some "int", .text, false⟩ =
      .ok [⟨TypeExpr.ofArgument "float", TypeExpr.ofArgument "int", none⟩] := by
  have accepted : parse ["--actual=int", "--expected", "float"] =
      .ok ⟨[], none, some "float", some "int", .text, false⟩ := by decide
  obtain ⟨-, one, -, -, pair, -⟩ := inputAsked _ _ accepted
  refine ⟨accepted, one.mpr ?_, pair "float" "int" (.inl ⟨["--actual=int"], [], by decide⟩) (.inr (by decide))⟩
  intro both
  have holds := parsedHolds accepted
  exact absurd ((holds.givenIff holds.queries).mp both.1) (by decide)

theorem actualIgnored :
    parse ["--queries", "q.json", "--actual", "int"] =
      .ok ⟨[], some "q.json", none, some "int", .text, false⟩ ∧
    ¬ OneInput ["--queries", "q.json", "--actual", "int"] ∧
    ∀ files, Session.queries files ⟨[], some "q.json", none, some "int", .text, false⟩ =
      Session.queries files ⟨[], some "q.json", none, none, .text, false⟩ := by
  have file : Given .queries ["--queries", "q.json", "--actual", "int"] := .inl (by decide)
  have actual : Given .actual ["--queries", "q.json", "--actual", "int"] := .inl (by decide)
  refine ⟨by decide, ?_, fun files => rfl⟩
  intro one
  rcases one with ⟨-, -, without⟩ | ⟨without, -, -⟩
  · exact without actual
  · exact without file

end Arguments
end GradualTypes
