import GradualTypes.Proofs.InputChoice

/-! Spellings of a command line. The options may come in any order, the stubs in any number of runs, and the
text format need not be named. However arguments are spelled, with their values as words of their own, reading
the words gives back the arguments, and the stubs in their order. -/
namespace GradualTypes

theorem OutputFormat.readWord (f : OutputFormat) : ofWord? f.word = some f := by
  cases f <;> decide

namespace Arguments

/- A part of a command line. The values of an option are separate words. -/
inductive Piece where
  | given (o : ValueOption) (values : List String)
  | colorless
  deriving DecidableEq, Repr

def Piece.words : Piece → List String
  | given o values => o.flag :: values
  | colorless => ["--no-color"]

/- All that an option is given, run after run. -/
def valuesOf (o : ValueOption) : List Piece → List String
  | [] => []
  | .given p values :: rest => if p = o then values ++ valuesOf o rest else valuesOf o rest
  | .colorless :: rest => valuesOf o rest

/- What each option says of the arguments. -/
def held (a : Arguments) : ValueOption → List String
  | .stubs => a.stubs
  | .queries => a.queries.toList
  | .expected => a.expected.toList
  | .actual => a.actual.toList
  | .format => [a.format.word]

structure Spells (pieces : List Piece) (a : Arguments) : Prop where
  -- A run of stubs is not empty; the other options take one value.
  run : ∀ o values, Piece.given o values ∈ pieces → values ≠ [] ∧ (o = .stubs ∨ values.length = 1)
  values : ∀ o, valuesOf o pieces = a.held o ∨ o = .format ∧ a.format = .text ∧ valuesOf o pieces = []
  colorless : pieces.count .colorless = a.noColor.toNat

/- A queries file or a pair of types, with strings that can stand as words of their own. -/
structure Writable (a : Arguments) : Prop where
  input : a.queries.isSome = true ∧ a.expected = none ∧ a.actual = none ∨
    a.queries = none ∧ a.expected.isSome = true ∧ a.actual.isSome = true
  dashless : ∀ o, ∀ v ∈ a.held o, v.toList.head? ≠ some '-'
  paths : "" ∉ a.stubs ∧ a.queries ≠ some ""

variable {d e : Draft} {a : Arguments} {o : ValueOption} {values : List String} {pieces : List Piece}
  {v : String}

theorem dashlessPlain (dashless : v.toList.head? ≠ some '-') : Plain v := by
  intro c cs chars
  rw [chars] at dashless
  exact dashless rfl

/- Values that an option stores wherever it may be given. -/
structure Suits (o : ValueOption) (values : List String) : Prop where
  fits : Fits o values
  filled : values ≠ []
  paths : o = .stubs ∨ o = .queries → "" ∉ values
  format : o = .format → ∃ f : OutputFormat, values = [f.word]

theorem storeSuited (suits : Suits o values) (free : o = .stubs ∨ d.held o = []) :
    ∃ stored, store d o values = .ok stored ∧ stored.noColor = d.noColor := by
  obtain ⟨v, more, rfl⟩ := List.exists_cons_of_ne_nil suits.filled
  cases o with
  | stubs =>
    have whole : ¬ (v :: more).any (fun p => p = "") = true := by
      simpa using suits.paths (.inl rfl)
    exact ⟨_, if_neg whole, rfl⟩
  | queries =>
    have unset : d.queries = none := by simpa [Draft.held] using free
    have named : v ≠ "" := by
      intro blank
      exact suits.paths (.inr rfl) (by simp [blank])
    exact ⟨{ d with queries := some v }, by simp [store, storePath, unset, named], rfl⟩
  | expected =>
    have unset : d.expected = none := by simpa [Draft.held] using free
    exact ⟨{ d with expected := some v }, by simp [store, storeText, unset], rfl⟩
  | actual =>
    have unset : d.actual = none := by simpa [Draft.held] using free
    exact ⟨{ d with actual := some v }, by simp [store, storeText, unset], rfl⟩
  | format =>
    have unset : d.format = none := by simpa [Draft.held] using free
    obtain ⟨f, same⟩ := suits.format rfl
    cases same
    exact ⟨{ d with format := some f }, by simp [store, unset, OutputFormat.readWord], rfl⟩

/- Pieces are read one after the other. An option that takes one value is not given again. -/
theorem piecesRead (suits : ∀ o values, Piece.given o values ∈ pieces → Suits o values)
    (once : ∀ o, o ≠ .stubs → (d.held o ++ valuesOf o pieces).length ≤ 1)
    (flag : d.noColor.toNat + pieces.count .colorless ≤ 1) :
    ∃ e, Reads d (pieces.flatMap Piece.words) e ∧ (∀ o, e.held o = d.held o ++ valuesOf o pieces) ∧
      e.noColor.toNat = d.noColor.toNat + pieces.count .colorless := by
  induction pieces generalizing d with
  | nil => exact ⟨d, .done d, by simp [valuesOf], by simp⟩
  | cons piece rest ih =>
    have later : ∀ o values, Piece.given o values ∈ rest → Suits o values :=
      fun o values member => suits o values (List.mem_cons_of_mem _ member)
    cases piece with
    | colorless =>
      rw [List.count_cons_self] at flag
      have fresh : d.noColor = false := by
        cases set : d.noColor with
        | false => rfl
        | true =>
          rw [set, Bool.toNat_true] at flag
          omega
      obtain ⟨e, reads, all, colors⟩ := ih (d := { d with noColor := true }) later
        (fun o single => by simpa [valuesOf, Draft.held] using once o single)
        (by simpa [fresh, Nat.add_comm] using flag)
      refine ⟨e, .colorless fresh reads, fun o => ?_, ?_⟩
      · rw [all o]
        cases o <;> rfl
      · rw [colors, List.count_cons_self, fresh]
        simp [Nat.add_comm]
    | given o values =>
      have suited := suits o values List.mem_cons_self
      have free : o = .stubs ∨ d.held o = [] := by
        by_cases several : o = .stubs
        · exact .inl several
        · have short := once o several
          simp only [valuesOf, if_pos, List.length_append] at short
          have given : 0 < values.length := List.length_pos_of_ne_nil suited.filled
          exact .inr (List.eq_nil_of_length_eq_zero (by omega))
      obtain ⟨stored, put, kept⟩ := storeSuited suited free
      have next : ∀ p, stored.held p ++ valuesOf p rest = d.held p ++ valuesOf p (.given o values :: rest) := by
        intro p
        rw [storedHeld suited.fits.single put, valuesOf]
        by_cases same : o = p
        · simp [same]
        · simp [same, Ne.symm same]
      obtain ⟨e, reads, all, colors⟩ := ih (d := stored) later
        (fun p single => by rw [next p]; exact once p single)
        (by simpa [kept] using flag)
      refine ⟨e, .apart suited.fits put reads, fun p => (all p).trans (next p), ?_⟩
      simpa [kept] using colors

theorem toListInj {α : Type} {x y : Option α} (same : x.toList = y.toList) : x = y := by
  cases x <;> cases y <;> simp_all

/- A draft that holds what the arguments say, or does not name the text format, is completed to them. -/
theorem heldComplete (writable : a.Writable)
    (held : ∀ o, e.held o = a.held o ∨ o = .format ∧ a.format = .text ∧ e.held o = [])
    (colors : e.noColor = a.noColor) : complete e = .ok a := by
  have stubs : e.stubs = a.stubs := by simpa [Draft.held, Arguments.held] using held .stubs
  have queries : e.queries = a.queries := toListInj (by simpa [Draft.held, Arguments.held] using held .queries)
  have expected : e.expected = a.expected := toListInj (by simpa [Draft.held, Arguments.held] using held .expected)
  have actual : e.actual = a.actual := toListInj (by simpa [Draft.held, Arguments.held] using held .actual)
  have format : e.format.getD .text = a.format := by
    cases named : e.format with
    | none =>
      have silent := held .format
      simp only [Draft.held, Arguments.held, named] at silent
      simpa [eq_comm] using silent
    | some f =>
      have word := held .format
      simp only [Draft.held, Arguments.held, named] at word
      have same : f.word = a.format.word := by simpa using word
      have read := OutputFormat.readWord f
      rw [same, OutputFormat.readWord] at read
      exact (Option.some.inj read).symm
  refine completeIff.mpr ⟨?_, ?_⟩
  · rw [queries, expected, actual]
    exact writable.input.imp_left fun file => ⟨file.1, file.2.1⟩
  · rw [stubs, queries, expected, actual, format, colors]

theorem valuesOfGiven (given : Piece.given o values ∈ pieces) :
    ∀ v ∈ values, v ∈ valuesOf o pieces := by
  induction pieces with
  | nil => simp at given
  | cons piece rest ih =>
    intro v inside
    rcases List.mem_cons.mp given with rfl | later
    · simp [valuesOf, inside]
    · have behind := ih later v inside
      cases piece with
      | colorless => exact behind
      | given p others =>
        rw [valuesOf]
        split
        · exact List.mem_append_right others behind
        · exact behind

theorem Spells.suits (spells : Spells pieces a) (writable : a.Writable) (given : Piece.given o values ∈ pieces) :
    Suits o values := by
  obtain ⟨filled, single⟩ := spells.run o values given
  have inside : ∀ v ∈ values, v ∈ a.held o := by
    intro v member
    have among := valuesOfGiven given v member
    rcases spells.values o with same | ⟨-, -, none⟩
    · exact same ▸ among
    · simp [none] at among
  exact {
    fits := ⟨fun v member => dashlessPlain (writable.dashless o v (inside v member)), single.imp_right Nat.le_of_eq⟩
    filled := filled
    paths := by
      rintro (rfl | rfl) blank
      · exact writable.paths.1 (inside "" blank)
      · exact writable.paths.2 (by simpa [Arguments.held] using inside "" blank)
    format := by
      rintro rfl
      obtain ⟨v, rfl⟩ := List.length_eq_one_iff.mp (single.resolve_left (by simp))
      exact ⟨a.format, by simpa [Arguments.held] using inside v⟩ }

/- Every value with its option in front of it, in the order of the fields. -/
def inOrder (a : Arguments) : List Piece :=
  [.stubs, .queries, .expected, .actual, .format].flatMap (fun o => (a.held o).map (fun v => .given o [v])) ++
    List.replicate a.noColor.toNat .colorless

theorem valuesOfAppend (left right : List Piece) :
    valuesOf o (left ++ right) = valuesOf o left ++ valuesOf o right := by
  induction left with
  | nil => rfl
  | cons piece rest ih =>
    cases piece with
    | colorless => exact ih
    | given p values =>
      simp only [List.cons_append, valuesOf, ih]
      split <;> simp

theorem valuesOfEach (p : ValueOption) (values : List String) :
    valuesOf o (values.map (fun v => .given p [v])) = if p = o then values else [] := by
  induction values with
  | nil => simp [valuesOf]
  | cons v rest ih =>
    rw [List.map_cons, valuesOf, ih]
    split <;> rfl

theorem valuesOfColorless (n : Nat) : valuesOf o (List.replicate n .colorless) = [] := by
  induction n with
  | zero => rfl
  | succ n ih => exact ih

theorem inOrderSpells (a : Arguments) : Spells a.inOrder a where
  run := by
    intro o values member
    simp only [inOrder, List.mem_append, List.mem_flatMap, List.mem_map, List.mem_replicate] at member
    rcases member with ⟨p, -, v, -, same⟩ | ⟨-, other⟩
    · cases same
      exact ⟨by simp, .inr rfl⟩
    · contradiction
  values := by
    intro o
    refine .inl ?_
    simp only [inOrder, valuesOfAppend, valuesOfColorless, List.flatMap_cons, List.flatMap_nil, valuesOfEach, valuesOf]
    cases o <;> simp
  colorless := by
    have none : (([.stubs, .queries, .expected, .actual, .format] : List ValueOption).flatMap
        (fun o => (a.held o).map (fun v => Piece.given o [v]))).count .colorless = 0 := by
      simp [List.count_eq_zero]
    rw [inOrder, List.count_append, none, List.count_replicate_self, Nat.zero_add]

/-- Arguments that can be written down have a spelling, and every spelling is read back as these arguments. -/
theorem spellingRead (a : Arguments) (writable : a.Writable) :
    (∃ pieces, Spells pieces a) ∧
    ∀ pieces, Spells pieces a → parse (pieces.flatMap Piece.words) = .ok a := by
  refine ⟨⟨a.inOrder, inOrderSpells a⟩, fun pieces spells => ?_⟩
  have once : ∀ o, o ≠ .stubs → (Draft.empty.held o ++ valuesOf o pieces).length ≤ 1 := by
    intro o single
    have none : Draft.empty.held o = [] := by cases o <;> rfl
    rw [none, List.nil_append]
    rcases spells.values o with same | ⟨-, -, nothing⟩
    · rw [same]
      cases o with
      | stubs => contradiction
      | queries => exact Option.length_toList_le
      | expected => exact Option.length_toList_le
      | actual => exact Option.length_toList_le
      | format => exact Nat.le_refl _
    · simp [nothing]
  have flag : Draft.empty.noColor.toNat + pieces.count .colorless ≤ 1 := by
    rw [spells.colorless]
    simpa [Draft.empty] using a.noColor.toNat_le
  obtain ⟨e, reads, all, colors⟩ := piecesRead (fun o values => spells.suits writable) once flag
  refine parseIff.mpr ⟨e, reads, heldComplete writable (fun o => ?_) ?_⟩
  · rw [all o, show Draft.empty.held o = [] by cases o <;> rfl, List.nil_append]
    exact spells.values o
  · have same : e.noColor.toNat = a.noColor.toNat := by simpa [Draft.empty, spells.colorless] using colors
    revert same
    cases e.noColor <;> cases a.noColor <;> simp

/- Two runs of stubs among the other options. The actual type is an empty string. -/
def scattered : List Piece :=
  [.given .actual [""], .given .stubs ["a.json", "b.json"], .colorless, .given .expected ["a=b"],
    .given .stubs ["c.json"]]

theorem scatteredRead :
    Writable ⟨["a.json", "b.json", "c.json"], none, some "a=b", some "", .text, true⟩ ∧
    Spells scattered ⟨["a.json", "b.json", "c.json"], none, some "a=b", some "", .text, true⟩ ∧
    scattered.flatMap Piece.words =
      ["--actual", "", "--stubs", "a.json", "b.json", "--no-color", "--expected", "a=b", "--stubs", "c.json"] ∧
    parse ["--actual", "", "--stubs", "a.json", "b.json", "--no-color", "--expected", "a=b", "--stubs", "c.json"] =
      .ok ⟨["a.json", "b.json", "c.json"], none, some "a=b", some "", .text, true⟩ := by
  have writable : Writable ⟨["a.json", "b.json", "c.json"], none, some "a=b", some "", .text, true⟩ := {
    input := by decide
    dashless := by
      intro o
      cases o <;> decide
    paths := by decide }
  have spells : Spells scattered ⟨["a.json", "b.json", "c.json"], none, some "a=b", some "", .text, true⟩ := {
    run := by
      intro o values member
      simp only [scattered, List.mem_cons, List.not_mem_nil, Piece.given.injEq, reduceCtorEq, or_false,
        false_or] at member
      rcases member with ⟨rfl, rfl⟩ | ⟨rfl, rfl⟩ | ⟨rfl, rfl⟩ | ⟨rfl, rfl⟩ <;> decide
    values := by
      intro o
      cases o <;> decide
    colorless := by decide }
  have words : scattered.flatMap Piece.words =
      ["--actual", "", "--stubs", "a.json", "b.json", "--no-color", "--expected", "a=b", "--stubs", "c.json"] := by
    decide
  exact ⟨writable, spells, words, words ▸ (spellingRead _ writable).2 scattered spells⟩

end Arguments
end GradualTypes
