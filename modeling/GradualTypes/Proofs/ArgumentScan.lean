import GradualTypes.Arguments
import GradualTypes.Proofs.Lowering

/-! How the words of a command line are read. What the scan accepts is said of the words alone: each is an
option, a value of the option before it, or the flag. An option is stored with all its values before what
comes after it is read. -/
namespace GradualTypes

def ValueOption.name : ValueOption → String
  | stubs => "stubs"
  | queries => "queries"
  | expected => "expected"
  | actual => "actual"
  | format => "format"

theorem ValueOption.nameIff {name : String} {o : ValueOption} : ofName? name = some o ↔ name = o.name := by
  constructor
  · intro h
    unfold ofName? at h
    split_ifs at h <;> cases h <;> assumption
  · intro h
    subst h
    cases o <;> decide

/- The word that an option is given by. -/
def ValueOption.flag (o : ValueOption) : String := "--" ++ o.name

/- An option and its only value in one word. -/
def ValueOption.joined (o : ValueOption) (v : String) : String := o.flag ++ "=" ++ v

namespace Arguments

/- A word that can be a value by itself. One dash alone is such a word. -/
def Plain (w : String) : Prop := ∀ c cs, w.toList ≠ '-' :: c :: cs

structure Fits (o : ValueOption) (values : List String) : Prop where
  plain : ∀ v ∈ values, Plain v
  single : o = .stubs ∨ values.length ≤ 1

/- The words change the first draft into the second. -/
inductive Reads : Draft → List String → Draft → Prop
  | done (d : Draft) : Reads d [] d
  | marked (d : Draft) : Reads d ["--"] d
  | apart {d stored e : Draft} {o : ValueOption} {values rest : List String} (fits : Fits o values)
      (put : store d o values = .ok stored) (tail : Reads stored rest e) :
      Reads d (o.flag :: values ++ rest) e
  | joined {d stored e : Draft} {o : ValueOption} {v : String} {rest : List String}
      (put : store d o [v] = .ok stored) (tail : Reads stored rest e) : Reads d (o.joined v :: rest) e
  | colorless {d e : Draft} {rest : List String} (fresh : d.noColor = false)
      (tail : Reads { d with noColor := true } rest e) : Reads d ("--no-color" :: rest) e

variable {d e stored : Draft} {s s' : Scan} {o : ValueOption} {values words rest : List String} {v w : String}

theorem flagChars : o.flag.toList = '-' :: '-' :: o.name.toList := by
  simp [ValueOption.flag, String.toList_append]

theorem joinedChars : (o.joined v).toList = '-' :: '-' :: (o.name.toList ++ '=' :: v.toList) := by
  simp [ValueOption.joined, ValueOption.flag, String.toList_append]

theorem flagNotPlain : ¬ Plain o.flag := fun plain => plain _ _ flagChars

theorem joinedNotPlain : ¬ Plain (o.joined v) := fun plain => plain _ _ joinedChars

@[simp] theorem flagNotMark : o.flag ≠ "--" := by
  cases o <;> decide

@[simp] theorem joinedNotMark : o.joined v ≠ "--" := by
  intro same
  have chars := congrArg String.toList same
  rw [joinedChars] at chars
  simp at chars

theorem splitName {cs : List Char} {name : String} (chars : w.toList = '-' :: '-' :: cs)
    (parts : splitValue cs = (name, none)) : w = "--" ++ name := by
  have whole := List.takeWhile_append_dropWhile (p := fun c => c != '=') (l := cs)
  unfold splitValue at parts
  cases back : cs.dropWhile (fun c => c != '=') with
  | nil =>
    simp only [back, Prod.mk.injEq, and_true] at parts
    rw [back, List.append_nil] at whole
    rw [← String.toList_inj, chars, ← parts, whole]
    simp
  | cons c value => simp [back] at parts

theorem splitBoth {cs : List Char} {name : String} (chars : w.toList = '-' :: '-' :: cs)
    (parts : splitValue cs = (name, some v)) : w = "--" ++ name ++ "=" ++ v := by
  have whole := List.takeWhile_append_dropWhile (p := fun c => c != '=') (l := cs)
  unfold splitValue at parts
  cases back : cs.dropWhile (fun c => c != '=') with
  | nil => simp [back] at parts
  | cons c value =>
    have sign : c = '=' := by
      have stop := List.head?_dropWhile_not (fun c => c != '=') cs
      simpa [back] using stop
    subst sign
    simp only [back, Prod.mk.injEq, Option.some.injEq] at parts
    rw [back] at whole
    rw [← String.toList_inj, chars, ← whole, ← parts.1, ← parts.2]
    simp

/- The words that an option still waiting was read from. -/
def Scan.pending (s : Scan) : List String :=
  match s.waiting with
  | none => []
  | some (o, values) => o.flag :: values

def Scan.Fitting (s : Scan) : Prop := ∀ o values, s.waiting = some (o, values) → Fits o values

theorem waitingFitting (fits : Fits o values) : (Scan.mk d (some (o, values))).Fitting := by
  intro o' values' waits
  cases waits
  exact fits

theorem settledFitting : (Scan.mk d none).Fitting := by
  simp [Scan.Fitting]

theorem settledReads (fitting : s.Fitting) (settled : settle s = .ok stored) (tail : Reads stored rest e) :
    Reads s.draft (s.pending ++ rest) e := by
  unfold settle at settled
  cases waits : s.waiting with
  | none =>
    simp only [waits, Except.ok.injEq] at settled
    simpa only [Scan.pending, waits, List.nil_append, settled] using tail
  | some pair =>
    obtain ⟨o, values⟩ := pair
    simp only [waits] at settled
    simp only [Scan.pending, waits]
    exact .apart (fitting o values waits) settled tail

theorem takenPlain (fitting : s.Fitting) (plain : Plain w) (taken : takeValue s w = .ok s') :
    s'.Fitting ∧ s'.draft = s.draft ∧ s'.pending = s.pending ++ [w] := by
  unfold takeValue at taken
  split at taken
  case h_1 values waits =>
    cases taken
    refine ⟨waitingFitting ⟨fun v inside => ?_, .inl rfl⟩, rfl, by simp [Scan.pending, waits]⟩
    rcases List.mem_append.mp inside with old | new
    · exact (fitting _ _ waits).plain v old
    · rw [List.mem_singleton.mp new]
      exact plain
  case h_2 o other waits =>
    cases taken
    refine ⟨waitingFitting ⟨fun v inside => ?_, .inr (by simp)⟩, rfl, by simp [Scan.pending, waits]⟩
    rw [List.mem_singleton.mp inside]
    exact plain
  case h_3 => contradiction

theorem takenFlag {name : String} (taken : takeFlag s name = .ok s') :
    ∃ d, name = "no-color" ∧ settle s = .ok d ∧ d.noColor = false ∧ s' = ⟨{ d with noColor := true }, none⟩ := by
  unfold takeFlag at taken
  split_ifs at taken with colorless help version
  · obtain ⟨d, settled, last⟩ := boundOk taken
    split_ifs at last with again
    cases last
    exact ⟨d, colorless, settled, by simpa using again, rfl⟩
  · obtain ⟨d, settled, last⟩ := boundOk taken
    cases last
  · obtain ⟨d, settled, last⟩ := boundOk taken
    cases last

theorem takenLong {name : String} {value : Option String} (taken : takeLong s name value = .ok s') :
    (∃ o d, name = o.name ∧ value = none ∧ settle s = .ok d ∧ s' = ⟨d, some (o, [])⟩) ∨
    (∃ o v d stored, name = o.name ∧ value = some v ∧ settle s = .ok d ∧ store d o [v] = .ok stored ∧
      s' = ⟨stored, none⟩) ∨
    ∃ d, name = "no-color" ∧ value = none ∧ settle s = .ok d ∧ d.noColor = false ∧
      s' = ⟨{ d with noColor := true }, none⟩ := by
  unfold takeLong at taken
  split at taken
  case h_1 o named =>
    obtain ⟨d, settled, last⟩ := boundOk taken
    cases last
    exact .inl ⟨o, d, ValueOption.nameIff.mp named, rfl, settled, rfl⟩
  case h_2 o v named =>
    obtain ⟨d, settled, more⟩ := boundOk taken
    obtain ⟨stored, put, last⟩ := boundOk more
    cases last
    exact .inr (.inl ⟨o, v, d, stored, ValueOption.nameIff.mp named, rfl, settled, put, rfl⟩)
  case h_3 =>
    obtain ⟨d, colorless, settled, fresh, after⟩ := takenFlag taken
    exact .inr (.inr ⟨d, colorless, rfl, settled, fresh, after⟩)
  case h_4 => cases taken

/- What reads on after the word reads on before it, with the word in front. -/
def Continues (s s' : Scan) (w : String) : Prop :=
  s'.Fitting ∧ ∀ rest e, Reads s'.draft (s'.pending ++ rest) e → Reads s.draft (s.pending ++ w :: rest) e

theorem longContinues {cs : List Char} (chars : w.toList = '-' :: '-' :: cs) (fitting : s.Fitting)
    (taken : takeLong s (splitValue cs).1 (splitValue cs).2 = .ok s') : Continues s s' w := by
  rcases takenLong taken with ⟨o, d, name, value, settled, rfl⟩ | ⟨o, v, d, stored, name, value, settled, put, rfl⟩ |
    ⟨d, name, value, settled, fresh, rfl⟩
  · have same : w = o.flag := splitName chars (Prod.ext name value)
    subst same
    exact ⟨waitingFitting ⟨by simp, .inr (by simp)⟩, fun rest e tail => settledReads fitting settled tail⟩
  · have same : w = o.joined v := splitBoth chars (Prod.ext name value)
    subst same
    exact ⟨settledFitting, fun rest e tail => settledReads fitting settled (.joined put tail)⟩
  · have same : w = "--no-color" := splitName chars (Prod.ext name value)
    subst same
    exact ⟨settledFitting, fun rest e tail => settledReads fitting settled (.colorless fresh tail)⟩

theorem takenArgument (fitting : s.Fitting) (taken : takeArgument s w = .ok s') : Continues s s' w := by
  unfold takeArgument at taken
  split at taken
  case h_1 cs chars => exact longContinues chars fitting taken
  case h_2 letter cs chars other =>
    unfold takeShort at taken
    split_ifs at taken
    · obtain ⟨-, other, -⟩ := takenFlag taken
      exact absurd other (by decide)
    · obtain ⟨-, other, -⟩ := takenFlag taken
      exact absurd other (by decide)
  case h_3 long short =>
    have plain : Plain w := by
      intro c cs chars
      exact short c cs chars
    obtain ⟨fitting', draft, pending⟩ := takenPlain fitting plain taken
    refine ⟨fitting', fun rest e tail => ?_⟩
    simpa [draft, pending] using tail

theorem scanReads (fitting : s.Fitting) (scanned : scan s words = .ok e) :
    Reads s.draft (s.pending ++ words) e := by
  -- An option that waits is not stored yet, so that its words are put back in front of those still to come.
  induction words generalizing s with
  | nil => exact settledReads fitting scanned (.done e)
  | cons w rest ih =>
    unfold scan at scanned
    split_ifs at scanned with mark last
    · subst mark last
      exact settledReads fitting scanned (.marked e)
    · obtain ⟨s', taken, more⟩ := boundOk scanned
      obtain ⟨fitting', back⟩ := takenArgument fitting taken
      exact back rest e (ih fitting' more)

theorem splitOfName : splitValue o.name.toList = (o.name, none) := by
  cases o <;> decide

theorem splitOfBoth : splitValue (o.name.toList ++ '=' :: v.toList) = (o.name, some v) := by
  have quiet : ∀ c ∈ o.name.toList, (c != '=') = true := by
    cases o <;> simp [ValueOption.name]
  unfold splitValue
  rw [List.takeWhile_append_of_pos quiet, List.dropWhile_append_of_pos quiet]
  simp

theorem takeFlagged (settled : settle s = .ok d) : takeArgument s o.flag = .ok ⟨d, some (o, [])⟩ := by
  unfold takeArgument
  simp only [flagChars, splitOfName, takeLong, ValueOption.nameIff.mpr rfl, settled, bind, Except.bind]

theorem takeJoined (settled : settle s = .ok d) (put : store d o [v] = .ok stored) :
    takeArgument s (o.joined v) = .ok ⟨stored, none⟩ := by
  unfold takeArgument
  simp only [joinedChars, splitOfBoth, takeLong, ValueOption.nameIff.mpr rfl, settled, put, bind, Except.bind]

theorem takeColorless (settled : settle s = .ok d) (fresh : d.noColor = false) :
    takeArgument s "--no-color" = .ok ⟨{ d with noColor := true }, none⟩ := by
  have chars : "--no-color".toList = '-' :: '-' :: "no-color".toList := rfl
  have parts : splitValue "no-color".toList = ("no-color", none) := by decide
  unfold takeArgument
  simp only [chars, parts, takeLong, takeFlag, settled, fresh, bind, Except.bind]
  rfl

theorem takePlain (plain : Plain w) : takeArgument s w = takeValue s w := by
  unfold takeArgument
  split
  case h_1 cs chars => exact absurd chars (plain _ _)
  case h_2 letter cs other chars => exact absurd chars (plain _ _)
  case h_3 => rfl

theorem scanTaken (other : w ≠ "--") (taken : takeArgument s w = .ok s') : scan s (w :: rest) = scan s' rest := by
  simp only [scan, if_neg other, taken, bind, Except.bind]

theorem scanPlain (plain : Plain w) (taken : takeValue s w = .ok s') : scan s (w :: rest) = scan s' rest := by
  refine scanTaken ?_ ((takePlain plain).trans taken)
  intro same
  exact plain '-' [] (by rw [same]; rfl)

theorem scanStubs (plain : ∀ v ∈ values, Plain v) (before : List String) :
    scan ⟨d, some (.stubs, before)⟩ (values ++ rest) = scan ⟨d, some (.stubs, before ++ values)⟩ rest := by
  induction values generalizing before with
  | nil => simp
  | cons v values ih =>
    rw [List.cons_append, scanPlain (plain v List.mem_cons_self) rfl,
      ih (fun v inside => plain v (List.mem_cons_of_mem _ inside)), List.append_assoc, List.singleton_append]

theorem scanValues (fits : Fits o values) :
    scan ⟨d, some (o, [])⟩ (values ++ rest) = scan ⟨d, some (o, values)⟩ rest := by
  cases values with
  | nil => rfl
  | cons v more =>
    by_cases several : o = .stubs
    · subst several
      exact scanStubs fits.plain []
    · have alone : more = [] := by
        have short := fits.single.resolve_left several
        simpa using short
      subst alone
      refine scanPlain (fits.plain v List.mem_cons_self) ?_
      cases o <;> first | contradiction | rfl

theorem readsScan (reads : Reads d words e) (settled : settle s = .ok d) : scan s words = .ok e := by
  induction reads generalizing s with
  | done d => exact settled
  | marked d => exact settled
  | apart fits put tail ih =>
    rw [List.cons_append, scanTaken flagNotMark (takeFlagged settled), scanValues fits]
    exact ih put
  | joined put tail ih =>
    rw [scanTaken joinedNotMark (takeJoined settled put)]
    exact ih rfl
  | colorless fresh tail ih =>
    rw [scanTaken (by decide) (takeColorless settled fresh)]
    exact ih rfl

theorem scanExact : scan ⟨d, none⟩ words = .ok e ↔ Reads d words e := by
  constructor
  · intro scanned
    exact scanReads (s := ⟨d, none⟩) settledFitting scanned
  · intro reads
    exact readsScan reads rfl

end Arguments
end GradualTypes
