import GradualTypes.Proofs.NameWords
import GradualTypes.Proofs.NominalQueries
import GradualTypes.Report

/-! Reading a report back. The report has a line for each outcome, with the verdict in front and a note at the end
of a line whose outcome failed. Types are written as they are called. A line break in a name begins a new line,
and a name may end like a note, so that a report can be read back exactly if the names in it do neither. -/
namespace GradualTypes
namespace Report

def lines (s : String) : List String := (s.toList.splitOn '\n').map String.ofList

/- The note at the end of a line whose author expected this verdict in vain. -/
def note (wanted : Bool) : String := "(expected " ++ verdictWord wanted ++ ")"

def noted (s : String) : Bool := (note true).toList.isSuffixOf s.toList || (note false).toList.isSuffixOf s.toList

/- What the line says of the outcome. -/
structure Tells (s : String) (o : Outcome) : Prop where
  verdict : ∀ matched, (verdictWord matched ++ ": ").toList <+: s.toList ↔ matched = o.matched
  failed : noted s = true ↔ o.passed = false

/- Line by line the report tells of the outcomes, and the summary counts the notes. -/
structure ReadsBack (os : List Outcome) : Prop where
  each : List.Forall₂ Tells (lines (text false os)) os
  failed : ∃ start, summary false os = start ++ ", " ++ toString ((lines (text false os)).countP noted) ++ " failed"

/- Neither name has a line break. -/
structure Whole (o : Outcome) : Prop where
  expected : '\n' ∉ o.expected.toList
  actual : '\n' ∉ o.actual.toList

/- Nor is the last name taken for a note that is not there. -/
structure Legible (o : Outcome) : Prop extends Whole o where
  plain : o.passed = true → noted o.actual = false

variable {o : Outcome} {os : List Outcome} {s : String}

theorem notedIff : noted s = true ↔ ∃ wanted, (note wanted).toList <:+ s.toList := by
  simp [noted, or_comm]

theorem linesFull (s : String) : lines s ≠ [] := by
  simp [lines, List.splitOn_ne_nil]

theorem linesSingle : (lines s).length = 1 ↔ '\n' ∉ s.toList := by
  constructor
  · intro single broken
    obtain ⟨before, after, parts⟩ := List.append_of_mem broken
    have first := List.length_pos_of_ne_nil (List.splitOn_ne_nil '\n' before)
    have second := List.length_pos_of_ne_nil (List.splitOn_ne_nil '\n' after)
    rw [lines, parts, List.splitOn_append_cons_self, List.length_map, List.length_append] at single
    omega
  · intro whole
    rw [lines, List.splitOn_eq_singleton whole]
    rfl

theorem linesOfSingle (whole : '\n' ∉ s.toList) : lines s = [s] := by
  rw [lines, List.splitOn_eq_singleton whole, List.map_singleton, String.ofList_toList]

/- Each outcome has its lines for itself. -/
theorem textLines (os : List Outcome) (filled : os ≠ []) :
    lines (text false os) = os.flatMap (fun o => lines (line false o)) := by
  induction os with
  | nil => contradiction
  | cons o rest ih =>
    cases rest with
    | nil => simp [text]
    | cons next more =>
      have parts : (text false (o :: next :: more)).toList =
          (line false o).toList ++ '\n' :: (text false (next :: more)).toList := by
        simp [text, String.toList_intercalate]
      have later := ih (by simp)
      rw [lines, parts, List.splitOn_append_cons_self, List.map_append, List.flatMap_cons, ← later]
      rfl

/- A line up to the name of the second type. -/
def front (o : Outcome) : String := verdictWord o.matched ++ ": " ++ o.expected ++ " <- "

theorem lineParts (o : Outcome) : line false o = front o ++ o.actual ++ remark false o := by
  simp [line, verdict, paint, front, String.append_assoc]

theorem remarkPassed (passed : o.passed = true) : remark false o = "" := by
  simp [remark, passed]

theorem remarkFailed (failed : o.passed = false) : remark false o = " " ++ note (!o.matched) := by
  simp [remark, failed, paint, note]

theorem lineWhole : '\n' ∉ (line false o).toList ↔ Whole o := by
  have words : ∀ matched, '\n' ∉ (verdictWord matched).toList := by decide
  have tail : '\n' ∉ (remark false o).toList := by
    cases passed : o.passed with
    | true => simp [remarkPassed passed]
    | false =>
      rw [remarkFailed passed]
      cases o.matched <;> decide
  have parts : '\n' ∉ (line false o).toList ↔ '\n' ∉ o.expected.toList ∧ '\n' ∉ o.actual.toList := by
    simp [lineParts, front, words, tail]
  exact parts.trans ⟨fun ⟨expected, actual⟩ => ⟨expected, actual⟩, fun whole => ⟨whole.expected, whole.actual⟩⟩

theorem lineVerdict (matched : Bool) :
    (verdictWord matched ++ ": ").toList <+: (line false o).toList ↔ matched = o.matched := by
  rw [lineParts, front]
  cases matched <;> cases o.matched <;> simp [verdictWord, List.cons_prefix_cons]

theorem suffixBehind {α : Type} {p a b : List α} {c : α} (absent : c ∉ p) (ending : p <:+ a ++ c :: b) : p <:+ b := by
  rcases List.suffix_or_suffix_of_suffix ending (List.suffix_append a (c :: b)) with inside | around
  · rcases List.suffix_cons_iff.mp inside with rfl | later
    · exact absurd List.mem_cons_self absent
    · exact later
  · exact absurd (around.subset List.mem_cons_self) absent

/- A note holds no arrow, so that it is a note of the report or lies in the name behind the arrow. -/
theorem lineNoted : noted (line false o) = true ↔ o.passed = false ∨ noted o.actual = true := by
  rw [lineParts, notedIff, notedIff]
  cases passed : o.passed with
  | true =>
    rw [remarkPassed passed, String.append_empty, String.toList_append]
    simp only [Bool.true_eq_false, false_or]
    refine exists_congr fun wanted => ⟨fun ending => ?_, fun ending => ending.trans (List.suffix_append _ _)⟩
    have arrow : (front o).toList ++ o.actual.toList =
        ((verdictWord o.matched ++ ": " ++ o.expected).toList ++ [' ', '<']) ++ '-' :: ' ' :: o.actual.toList := by
      simp [front]
    have dashless : '-' ∉ (note wanted).toList := by cases wanted <;> decide
    rw [arrow] at ending
    rcases List.suffix_cons_iff.mp (suffixBehind dashless ending) with same | inside
    · cases wanted <;> simp [note] at same
    · exact inside
  | false =>
    rw [remarkFailed passed]
    simp only [true_or, iff_true]
    refine ⟨!o.matched, ?_⟩
    rw [← String.append_assoc, String.toList_append]
    exact List.suffix_append _ _

theorem tellsIff : Tells (line false o) o ↔ (o.passed = true → noted o.actual = false) := by
  constructor
  · intro tells passed
    by_contra mistaken
    have failed := tells.failed.mp (lineNoted.mpr (.inr (by simpa using mistaken)))
    simp [passed] at failed
  · intro plain
    refine ⟨lineVerdict, lineNoted.trans ⟨fun noted => ?_, .inl⟩⟩
    rcases noted with failed | mistaken
    · exact failed
    · by_contra passed
      have unnoted := plain (by simpa using passed)
      simp [mistaken] at unnoted

theorem linesLeast (os : List Outcome) : os.length ≤ (os.flatMap fun o => lines (line false o)).length := by
  induction os with
  | nil => exact Nat.le_refl _
  | cons o rest ih =>
    have full := List.length_pos_of_ne_nil (linesFull (line false o))
    rw [List.flatMap_cons, List.length_append, List.length_cons]
    omega

/- No outcome has more than one line if there are as many lines as outcomes. -/
theorem singleEach (filled : os ≠ []) (count : (lines (text false os)).length = os.length) :
    ∀ o ∈ os, (lines (line false o)).length = 1 := by
  rw [textLines os filled] at count
  clear filled
  induction os with
  | nil => simp
  | cons o rest ih =>
    have full := List.length_pos_of_ne_nil (linesFull (line false o))
    have others := linesLeast rest
    rw [List.flatMap_cons, List.length_append, List.length_cons] at count
    exact List.forall_mem_cons.mpr ⟨by omega, ih (by omega)⟩

theorem textWhole (filled : os ≠ []) (whole : ∀ o ∈ os, Whole o) :
    lines (text false os) = os.map (line false) := by
  rw [textLines os filled, List.map_eq_flatMap]
  exact List.flatMap_congr fun o member => linesOfSingle (lineWhole.mpr (whole o member))

theorem countIff (filled : os ≠ []) : (lines (text false os)).length = os.length ↔ ∀ o ∈ os, Whole o := by
  constructor
  · intro count o member
    exact lineWhole.mp (linesSingle.mp (singleEach filled count o member))
  · intro whole
    rw [textWhole filled whole, List.length_map]

theorem summaryCounts (os : List Outcome) :
    ∃ start, summary false os = start ++ ", " ++ toString (failures os) ++ " failed" :=
  ⟨_, rfl⟩

theorem readsBackIff (filled : os ≠ []) : ReadsBack os ↔ ∀ o ∈ os, Legible o := by
  constructor
  · intro reads o member
    have whole := (countIff filled).mp reads.each.length_eq
    have each := reads.each
    rw [textWhole filled whole, List.forall₂_map_left_iff, List.forall₂_same] at each
    exact ⟨whole o member, tellsIff.mp (each o member)⟩
  · intro legible
    have whole : ∀ o ∈ os, Whole o := fun o member => (legible o member).toWhole
    have tells : ∀ o ∈ os, Tells (line false o) o := fun o member => tellsIff.mpr (legible o member).plain
    have counted : (lines (text false os)).countP noted = failures os := by
      rw [textWhole filled whole, List.countP_map, failures, ← List.countP_eq_length_filter]
      exact List.countP_congr fun o member => by simpa using (tells o member).failed
    refine ⟨?_, counted ▸ summaryCounts os⟩
    rw [textWhole filled whole, List.forall₂_map_left_iff, List.forall₂_same]
    exact tells

end Report

namespace Universe

open Report

variable {u : Universe} {q : Query} {qs : List Query} {o : Outcome} {os : List Outcome} {index : Nat}

theorem answerNames (answered : u.answer index q = .ok o) : ∃ e a : Ty,
    o.expected = e.displayName u.classes ∧ o.actual = a.displayName u.classes := by
  unfold answer at answered
  obtain ⟨e, -, more⟩ := boundOk answered
  obtain ⟨a, -, last⟩ := boundOk more
  cases last
  exact ⟨e, a, rfl, rfl⟩

theorem answersNames (answered : u.answerFrom index qs = .ok os) : ∀ o ∈ os, ∃ e a : Ty,
    o.expected = e.displayName u.classes ∧ o.actual = a.displayName u.classes := by
  induction qs generalizing index os with
  | nil =>
    cases answered
    simp
  | cons q rest ih =>
    unfold answerFrom at answered
    obtain ⟨first, here, more⟩ := boundOk answered
    obtain ⟨others, later, last⟩ := boundOk more
    cases last
    exact List.forall_mem_cons.mpr ⟨answerNames here, ih later⟩

theorem breakWord : Ty.Word ['\n'] := ⟨by decide, by simp [Ty.signs], by decide, by decide⟩

theorem expectedWord : Ty.Word "expected".toList := ⟨by decide, by simp [Ty.signs], by decide, by decide⟩

theorem nameWhole (whole : ∀ c name, u.classes.name? c = some name → '\n' ∉ name.toList) (t : Ty) :
    '\n' ∉ (t.displayName u.classes).toList := by
  intro broken
  obtain ⟨before, after, parts⟩ := List.append_of_mem broken
  have within : ['\n'] <:+: (t.displayName u.classes).toList := ⟨before, after, by simp [parts]⟩
  obtain ⟨c, name, named, inside⟩ := Ty.wordInName breakWord t within
  exact whole c name named (inside.subset (by simp))

theorem namePlain (plain : ∀ c name, u.classes.name? c = some name → ¬ "expected".toList <:+: name.toList) (t : Ty) :
    noted (t.displayName u.classes) = false := by
  by_contra mistaken
  obtain ⟨wanted, ending⟩ := notedIff.mp (by simpa using mistaken)
  have word : "expected".toList <:+: (note wanted).toList := by cases wanted <;> decide
  obtain ⟨c, name, named, inside⟩ := Ty.wordInName expectedWord t (word.trans ending.isInfix)
  exact plain c name named inside

/- A class can be asked about under its qualified name, and is displayed under its own. -/
theorem nameShown (reached : u.Reached) {c : ClassId} {name : String} (named : u.classes.name? c = some name) :
    ∃ q o, u.answerAll [q] = .ok [o] ∧ o.expected = name := by
  obtain ⟨stubs, consistent⟩ := reachedConsistent reached
  obtain ⟨i, s, at', -, rfl⟩ := (nameIff consistent name c).mp named
  have found : u.class? s.qualifiedName = some (i + 1) :=
    (classIff consistent _ _).mpr (.inl ((indexIff consistent _ _).mpr ⟨i, s, at', rfl, rfl⟩))
  have shown : (Ty.nominal (some (i + 1))).displayName u.classes = name := by
    simp [Ty.displayName, Ty.name?, named]
  refine ⟨⟨.named s.qualifiedName, .unknown, none⟩,
    ⟨name, Ty.namelessLabel, u.context.isMatch (.nominal (some (i + 1))) .unknown, none⟩, ?_, rfl⟩
  have unknown : u.lower .unknown = .ok .unknown := by rw [lower]
  simp only [answerAll, answerFrom, answer, lowerSide, lowerNamed found, unknown, bind, Except.bind, shown]
  rfl

theorem lineEach (reached : u.Reached) :
    (∀ qs os, u.answerAll qs = .ok os → os ≠ [] → (lines (text false os)).length = os.length) ↔
      ∀ c name, u.classes.name? c = some name → '\n' ∉ name.toList := by
  constructor
  · intro single c name named
    obtain ⟨q, o, answered, shown⟩ := nameShown reached named
    have whole := (countIff (by simp)).mp (single [q] [o] answered (by simp))
    exact shown ▸ (whole o List.mem_cons_self).expected
  · intro whole qs os answered filled
    refine (countIff filled).mpr fun o member => ?_
    obtain ⟨e, a, expected, actual⟩ := answersNames answered o member
    exact ⟨expected ▸ nameWhole whole e, actual ▸ nameWhole whole a⟩

/-- A report of answers can be read back exactly if no type in it is called by a name that has a line break or,
where nothing failed, ends like a note. Each answer has a line of its own, whatever is asked, exactly if no class
name has a line break; where moreover no class name has the word that notes begin with, every report of the
universe can be read back. -/
theorem reportReadBack (reached : u.Reached) :
    (∀ qs os, u.answerAll qs = .ok os → os ≠ [] → (ReadsBack os ↔ ∀ o ∈ os, Legible o)) ∧
    ((∀ qs os, u.answerAll qs = .ok os → os ≠ [] → (lines (text false os)).length = os.length) ↔
      ∀ c name, u.classes.name? c = some name → '\n' ∉ name.toList) ∧
    ((∀ c name, u.classes.name? c = some name → '\n' ∉ name.toList ∧ ¬ "expected".toList <:+: name.toList) →
      ∀ qs os, u.answerAll qs = .ok os → os ≠ [] → ReadsBack os) := by
  refine ⟨fun qs os _ filled => readsBackIff filled, lineEach reached, fun plain qs os answered filled => ?_⟩
  have whole : ∀ c name, u.classes.name? c = some name → '\n' ∉ name.toList :=
    fun c name named => (plain c name named).1
  refine (readsBackIff filled).mpr fun o member => ?_
  obtain ⟨e, a, expected, actual⟩ := answersNames answered o member
  exact {
    expected := expected ▸ nameWhole whole e
    actual := actual ▸ nameWhole whole a
    plain := fun _ => actual ▸ namePlain (fun c name named => (plain c name named).2) a }

theorem builtinsReport :
    withBuiltins.answerAll [⟨.named "float", .named "int", some false⟩, ⟨.tuple [.named "str"], .unknown, some true⟩] =
      .ok [⟨"float", "int", true, some false⟩, ⟨"tuple(str)", "unknown", true, some true⟩] ∧
    text false [⟨"float", "int", true, some false⟩, ⟨"tuple(str)", "unknown", true, some true⟩] =
      "match: float <- int (expected mismatch)\nmatch: tuple(str) <- unknown" ∧
    ReadsBack [⟨"float", "int", true, some false⟩, ⟨"tuple(str)", "unknown", true, some true⟩] := by
  have answered : withBuiltins.answerAll
      [⟨.named "float", .named "int", some false⟩, ⟨.tuple [.named "str"], .unknown, some true⟩] =
        .ok [⟨"float", "int", true, some false⟩, ⟨"tuple(str)", "unknown", true, some true⟩] := by
    decide +kernel
  have names : ∀ d ∈ withBuiltins.classes.decls, ∀ name ∈ d.name,
      '\n' ∉ name.toList ∧ ¬ "expected".toList <:+: name.toList := by
    decide +kernel
  refine ⟨answered, by decide +kernel, ?_⟩
  refine (reportReadBack builtinsReached).2.2 (fun c name named => ?_) _ _ answered (by simp)
  obtain ⟨d, member, called⟩ := ClassTable.nameDeclared named
  exact names d member name called

/- One class is called by two lines, the other like a note. -/
def oddities : Manifest :=
  ⟨[⟨"A\nB", none, [], []⟩, ⟨"C (expected match)", none, [], []⟩], [], .empty⟩

def withOddities : Universe := (withBuiltins.install oddities).1

/- One outcome takes two lines, and one that nothing was expected of has a note. -/
theorem reportNotReadBack : withOddities.Reached ∧
    (withOddities.answerAll [⟨.named "A\nB", .named "int", none⟩] = .ok [⟨"A\nB", "int", false, none⟩] ∧
      lines (text false [⟨"A\nB", "int", false, none⟩]) = ["mismatch: A", "B <- int"] ∧
      ¬ ReadsBack [⟨"A\nB", "int", false, none⟩]) ∧
    withOddities.answerAll [⟨.named "int", .named "C (expected match)", none⟩] =
        .ok [⟨"int", "C (expected match)", false, none⟩] ∧
      lines (text false [⟨"int", "C (expected match)", false, none⟩]) =
        ["mismatch: int <- C (expected match)"] ∧
      failures [⟨"int", "C (expected match)", false, none⟩] = 0 ∧
      ¬ ReadsBack [⟨"int", "C (expected match)", false, none⟩] := by
  have reached : withOddities.Reached := .install builtinsReached oddities
  have broken : ¬ ReadsBack [⟨"A\nB", "int", false, none⟩] := by
    intro reads
    have legible := (readsBackIff (by simp)).mp reads _ List.mem_cons_self
    exact absurd legible.expected (by decide)
  have mistaken : ¬ ReadsBack [⟨"int", "C (expected match)", false, none⟩] := by
    intro reads
    have legible := (readsBackIff (by simp)).mp reads _ List.mem_cons_self
    exact absurd (legible.plain rfl) (by decide)
  exact ⟨reached, ⟨by decide +kernel, by decide +kernel, broken⟩, by decide +kernel, by decide +kernel, by decide,
    mistaken⟩

end Universe
end GradualTypes
