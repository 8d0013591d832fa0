import GradualTypes.Json.Reader
import GradualTypes.Json.Printer
import Mathlib.Data.List.Basic

/-! Printed values read back. The characters of a printed value are cut into its own tokens, whatever was met
before them, and the tokens are put together to the value, inside whatever is open around it. -/
namespace GradualTypes

namespace Json

mutual
/- Most arrays and objects inside one another. -/
def depth : Json → Nat
  | array items => itemsDepth items + 1
  | object fields => fieldsDepth fields + 1
  | _ => 0

def itemsDepth : List Json → Nat
  | [] => 0
  | v :: rest => max v.depth (itemsDepth rest)

def fieldsDepth : List (Option String × Json) → Nat
  | [] => 0
  | (_, v) :: rest => max v.depth (fieldsDepth rest)
end

mutual
/- A value without numbers, every string of which has its content. -/
def Plain : Json → Prop
  | null => True
  | bool _ => True
  | number _ => False
  | text content => content.isSome
  | array items => AllPlain items
  | object fields => FieldsPlain fields

def AllPlain : List Json → Prop
  | [] => True
  | v :: rest => v.Plain ∧ AllPlain rest

def FieldsPlain : List (Option String × Json) → Prop
  | [] => True
  | (key, v) :: rest => key.isSome ∧ v.Plain ∧ FieldsPlain rest
end

mutual
def tokens : Json → List Token
  | null => [.scalar .null]
  | bool b => [.scalar (.bool b)]
  | number n => [.scalar (.number n)]
  | text content => [.text content]
  | array items => .openArray :: (itemTokens items ++ [.closeArray])
  | object fields => .openObject :: (fieldTokens fields ++ [.closeObject])

def itemTokens : List Json → List Token
  | [] => []
  | [v] => v.tokens
  | v :: rest => v.tokens ++ .comma :: itemTokens rest

def fieldTokens : List (Option String × Json) → List Token
  | [] => []
  | [(key, v)] => .text key :: .colon :: v.tokens
  | (key, v) :: rest => .text key :: .colon :: (v.tokens ++ .comma :: fieldTokens rest)
end

theorem itemsDepthLe {items : List Json} {n : Nat} : itemsDepth items ≤ n ↔ ∀ v ∈ items, v.depth ≤ n := by
  induction items with
  | nil => simp [itemsDepth]
  | cons v rest ih => simp only [itemsDepth, Nat.max_le, ih, List.forall_mem_cons]

theorem fieldsDepthLe {fields : List (Option String × Json)} {n : Nat} :
    fieldsDepth fields ≤ n ↔ ∀ f ∈ fields, f.2.depth ≤ n := by
  induction fields with
  | nil => simp [fieldsDepth]
  | cons f rest ih => simp only [fieldsDepth, Nat.max_le, ih, List.forall_mem_cons]

theorem allPlainIff {items : List Json} : AllPlain items ↔ ∀ v ∈ items, v.Plain := by
  induction items with
  | nil => simp [AllPlain]
  | cons v rest ih => simp [AllPlain, ih]

theorem fieldsPlainIff {fields : List (Option String × Json)} :
    FieldsPlain fields ↔ ∀ f ∈ fields, f.1.isSome ∧ f.2.Plain := by
  induction fields with
  | nil => simp [FieldsPlain]
  | cons f rest ih => simp [FieldsPlain, ih, and_assoc]

mutual
theorem readableDepth : ∀ {v : Json} {level : Nat}, level ≤ depthLimit → v.isReadable level →
    level + v.depth ≤ depthLimit
  | .null, _, within, _ => within
  | .bool _, _, within, _ => within
  | .number _, _, within, _ => within
  | .text _, _, within, _ => within
  | .array items, level, within, readable => by
    simp only [isReadable, Bool.and_eq_true, decide_eq_true_eq] at readable
    have inner := itemsReadableDepth readable.1 readable.2
    simp only [depth]
    omega
  | .object fields, level, within, readable => by
    simp only [isReadable, Bool.and_eq_true, decide_eq_true_eq] at readable
    have inner := fieldsReadableDepth readable.1 readable.2
    simp only [depth]
    omega

theorem itemsReadableDepth : ∀ {items : List Json} {level : Nat}, level ≤ depthLimit →
    allReadable level items → level + itemsDepth items ≤ depthLimit
  | [], _, within, _ => within
  | v :: rest, level, within, readable => by
    simp only [allReadable, Bool.and_eq_true] at readable
    have head := readableDepth within readable.1
    have tail := itemsReadableDepth within readable.2
    simp only [itemsDepth]
    omega

theorem fieldsReadableDepth : ∀ {fields : List (Option String × Json)} {level : Nat}, level ≤ depthLimit →
    fieldsReadable level fields → level + fieldsDepth fields ≤ depthLimit
  | [], _, within, _ => within
  | (key, v) :: rest, level, within, readable => by
    simp only [fieldsReadable, Bool.and_eq_true] at readable
    have head := readableDepth within readable.1.2
    have tail := fieldsReadableDepth within readable.2
    simp only [fieldsDepth]
    omega
end

mutual
theorem plainReadable : ∀ {v : Json} {level : Nat}, v.Plain → level + v.depth ≤ depthLimit →
    v.isReadable level
  | .null, _, _, _ => rfl
  | .bool _, _, _, _ => rfl
  | .number _, _, plain, _ => plain.elim
  | .text _, _, plain, _ => plain
  | .array items, level, plain, within => by
    simp only [depth] at within
    have inner : allReadable (level + 1) items := plainItemsReadable plain (by omega)
    simp only [isReadable, inner, Bool.and_true, decide_eq_true_eq]
    omega
  | .object fields, level, plain, within => by
    simp only [depth] at within
    have inner : fieldsReadable (level + 1) fields := plainFieldsReadable plain (by omega)
    simp only [isReadable, inner, Bool.and_true, decide_eq_true_eq]
    omega

theorem plainItemsReadable : ∀ {items : List Json} {level : Nat}, AllPlain items →
    level + itemsDepth items ≤ depthLimit → allReadable level items
  | [], _, _, _ => rfl
  | v :: rest, level, plain, within => by
    simp only [itemsDepth] at within
    have head : v.isReadable level := plainReadable plain.1 (by omega)
    have tail : allReadable level rest := plainItemsReadable plain.2 (by omega)
    simp only [allReadable, head, tail, Bool.and_true]

theorem plainFieldsReadable : ∀ {fields : List (Option String × Json)} {level : Nat}, FieldsPlain fields →
    level + fieldsDepth fields ≤ depthLimit → fieldsReadable level fields
  | [], _, _, _ => rfl
  | (key, v) :: rest, level, plain, within => by
    simp only [fieldsDepth] at within
    have head : v.isReadable level := plainReadable plain.2.1 (by omega)
    have tail : fieldsReadable level rest := plainFieldsReadable plain.2.2 (by omega)
    simp only [fieldsReadable, plain.1, head, tail, Bool.and_true]
end

end Json

namespace Token.Scan

/- The scan has met these tokens, the newest first; a bare word counts although its end is still to come. -/
def Met (ts : List Token) (s : Scan) : Prop :=
  s = ⟨.between, ts⟩ ∨
    ∃ met t rest, s = ⟨.bare met, rest⟩ ∧ ofBare? met.reverse = some t ∧ ts = t :: rest

theorem finishMet {ts : List Token} {s : Scan} (met : Met ts s) : s.finish? = some ts.reverse := by
  rcases met with rfl | ⟨word, t, rest, rfl, read, rfl⟩
  · rfl
  · simp [finish?, read]

theorem stepMark {c : Char} {t : Token} (mark : ofMark? c = some t) {ts : List Token} {s : Scan}
    (met : Met ts s) : s.step c = some ⟨.between, t :: ts⟩ := by
  have apart : isBlank c = false ∧ isBare c = false ∧ c ≠ '"' := by
    unfold ofMark? at mark
    repeat' split at mark
    all_goals first | (subst c; decide) | contradiction
  obtain ⟨blank, bare, quote⟩ := apart
  have between : ∀ ts, stepBetween ts c = some ⟨.between, t :: ts⟩ := by
    intro ts
    simp [stepBetween, blank, bare, quote, mark]
  rcases met with rfl | ⟨word, u, rest, rfl, read, rfl⟩
  · simp [step, between]
  · simp [step, bare, read, between]

theorem contentChars (cs : List Char) : content? (cs.map Char.toNat) = some cs := by
  induction cs with
  | nil => simp [content?]
  | cons c cs ih =>
    have valid : c.toNat < 0xD800 ∨ 0xDFFF < c.toNat ∧ c.toNat < 0x110000 := c.valid
    have high : ¬ (0xD800 ≤ c.toNat ∧ c.toNat < 0xDC00) := by omega
    have low : ¬ (0xDC00 ≤ c.toNat ∧ c.toNat < 0xE000) := by omega
    rw [List.map_cons, content?.eq_def]
    simp [high, low, ih]

theorem hexDigitChar : ∀ d < 16, hexDigit? (Json.hexChar d) = some d := by
  decide

theorem runEscape (c : Char) (met : List Nat) (ts : List Token) :
    (Json.escape c).foldlM step ⟨.inText met, ts⟩ = some ⟨.inText (c.toNat :: met), ts⟩ := by
  unfold Json.escape
  split_ifs with quote backslash b f n r t control
  case pos => subst c; rfl
  case pos => subst c; rfl
  case pos => subst c; rfl
  case pos => subst c; rfl
  case pos => subst c; rfl
  case pos => subst c; rfl
  case pos => subst c; rfl
  case pos =>
    have upper := hexDigitChar (c.toNat / 16) (by omega)
    have lower := hexDigitChar (c.toNat % 16) (by omega)
    have zero : hexDigit? '0' = some 0 := by decide
    have value : c.toNat / 16 * 16 + c.toNat % 16 = c.toNat := by omega
    simp [List.foldlM_cons, step, zero, upper, lower, value]
  case neg => simp [List.foldlM_cons, step, quote, backslash, control]

theorem runQuote (str : String) (ts : List Token) :
    (Json.quote str).foldlM step ⟨.between, ts⟩ = some ⟨.between, .text (some str) :: ts⟩ := by
  have inside : ∀ (cs : List Char) (met : List Nat),
      (cs.flatMap Json.escape).foldlM step ⟨.inText met, ts⟩ =
        some ⟨.inText ((cs.map Char.toNat).reverse ++ met), ts⟩ := by
    intro cs
    induction cs with
    | nil => simp
    | cons c cs ih =>
      intro met
      simp [List.foldlM_append, runEscape, ih]
  have opened : step ⟨.between, ts⟩ '"' = some ⟨.inText [], ts⟩ := rfl
  have closed : step ⟨.inText (str.toList.map Char.toNat).reverse, ts⟩ '"' =
      some ⟨.between, .text (some str) :: ts⟩ := by
    simp only [step, if_true, List.reverse_reverse, contentChars, Option.map_some, String.ofList_toList]
  rw [Json.quote, List.foldlM_cons, opened]
  simp only [Option.bind_eq_bind, Option.bind_some, List.foldlM_append, inside, List.append_nil,
    List.foldlM_cons, closed, List.foldlM_nil, Option.pure_def]

/- These characters are cut into these tokens, whatever was met before. -/
def Cuts (cs : List Char) (new : List Token) : Prop :=
  ∀ ts, ∃ s, cs.foldlM step ⟨.between, ts⟩ = some s ∧ Met (new.reverse ++ ts) s

theorem cutsNothing : Cuts [] [] := fun ts => ⟨⟨.between, ts⟩, rfl, .inl rfl⟩

/- A mark ends a word that stands before it. -/
theorem cutsMark {c : Char} {t : Token} (mark : ofMark? c = some t) {cs ds : List Char}
    {new more : List Token} (before : Cuts cs new) (after : Cuts ds more) :
    Cuts (cs ++ c :: ds) (new ++ t :: more) := by
  intro ts
  obtain ⟨s, run, met⟩ := before ts
  obtain ⟨s', run', met'⟩ := after (t :: (new.reverse ++ ts))
  refine ⟨s', ?_, ?_⟩
  · rw [List.foldlM_append, run, Option.bind_eq_bind, Option.bind_some, List.foldlM_cons, stepMark mark met]
    exact run'
  · simpa using met'

end Token.Scan

namespace Json
open Token Token.Scan

theorem cutsContent {content : Option String} (known : content.isSome) :
    Cuts (spellContent content) [.text content] := by
  obtain ⟨str, rfl⟩ := Option.isSome_iff_exists.mp known
  exact fun ts => ⟨_, runQuote str ts, .inl rfl⟩

mutual
theorem cutsSpell : ∀ {v : Json}, v.Plain → Cuts v.spell v.tokens
  | .null, _ => fun _ => ⟨_, rfl, .inr ⟨_, _, _, rfl, rfl, rfl⟩⟩
  | .bool true, _ => fun _ => ⟨_, rfl, .inr ⟨_, _, _, rfl, rfl, rfl⟩⟩
  | .bool false, _ => fun _ => ⟨_, rfl, .inr ⟨_, _, _, rfl, rfl, rfl⟩⟩
  | .number _, plain => plain.elim
  | .text _, plain => cutsContent plain
  | .array _, plain =>
    have closed := cutsMark (c := ']') rfl (cutsItems plain) cutsNothing
    cutsMark (c := '[') rfl cutsNothing closed
  | .object _, plain =>
    have closed := cutsMark (c := '\x7d') rfl (cutsFields plain) cutsNothing
    cutsMark (c := '\x7b') rfl cutsNothing closed

theorem cutsItems : ∀ {items : List Json}, AllPlain items → Cuts (spellItems items) (itemTokens items)
  | [], _ => cutsNothing
  | [_], plain => cutsSpell plain.1
  | _ :: _ :: _, plain => cutsMark (c := ',') rfl (cutsSpell plain.1) (cutsItems plain.2)

theorem cutsFields : ∀ {fields : List (Option String × Json)}, FieldsPlain fields →
    Cuts (spellFields fields) (fieldTokens fields)
  | [], _ => cutsNothing
  | [_], plain => cutsMark (c := ':') rfl (cutsContent plain.1) (cutsSpell plain.2.1)
  | _ :: _ :: _, plain =>
    have rest := cutsMark (c := ',') rfl (cutsSpell plain.2.1) (cutsFields plain.2.2)
    cutsMark (c := ':') rfl (cutsContent plain.1) rest
end

/- No value begins with the end of an array. -/
theorem firstItemRead (v : Json) (more : List Token) (outer : List Frame) :
    (v.tokens ++ more).foldlM Reading.step (.firstItem outer) =
      (v.tokens ++ more).foldlM Reading.step (.value (.items [] :: outer)) := by
  cases v <;> rfl

mutual
theorem readTokens : ∀ (v : Json) (outer : List Frame) (more : List Token),
    (v.tokens ++ more).foldlM Reading.step (.value outer) = more.foldlM Reading.step (.ended v outer)
  | .null, _, _ => rfl
  | .bool _, _, _ => rfl
  | .number _, _, _ => rfl
  | .text _, _, _ => rfl
  | .array [], _, _ => rfl
  | .array (v :: rest), outer, more => by
    have opened : (itemTokens (v :: rest) ++ .closeArray :: more).foldlM Reading.step (.firstItem outer) =
        (itemTokens (v :: rest) ++ .closeArray :: more).foldlM Reading.step
          (.value (.items [] :: outer)) := by
      cases rest with
      | nil => exact firstItemRead v _ outer
      | cons w rest =>
        simp only [itemTokens, List.append_assoc]
        exact firstItemRead v _ outer
    have inside := readItems (v :: rest) [] outer more (by simp)
    simp only [tokens, List.cons_append, List.append_assoc, List.nil_append, List.foldlM_cons]
    exact opened.trans inside
  | .object [], _, _ => rfl
  | .object (f :: rest), outer, more => by
    have opened : (fieldTokens (f :: rest) ++ .closeObject :: more).foldlM Reading.step (.firstKey outer) =
        (fieldTokens (f :: rest) ++ .closeObject :: more).foldlM Reading.step (.nextKey [] outer) := by
      cases rest <;> rfl
    have inside := readFields (f :: rest) [] outer more (by simp)
    simp only [tokens, List.cons_append, List.append_assoc, List.nil_append, List.foldlM_cons]
    exact opened.trans inside

theorem readItems : ∀ (items met : List Json) (outer : List Frame) (more : List Token), items ≠ [] →
    (itemTokens items ++ .closeArray :: more).foldlM Reading.step (.value (.items met :: outer)) =
      more.foldlM Reading.step (.ended (.array (met.reverse ++ items)) outer)
  | [], _, _, _, present => absurd rfl present
  | [v], met, outer, more, _ => by
    rw [itemTokens, readTokens v]
    simp [Reading.step]
  | v :: w :: rest, met, outer, more, _ => by
    have tail := readItems (w :: rest) (v :: met) outer more (by simp)
    simp only [itemTokens, List.append_assoc, List.cons_append, readTokens v]
    exact tail.trans (by simp)

theorem readFields : ∀ (fields met : List (Option String × Json)) (outer : List Frame) (more : List Token),
    fields ≠ [] →
    (fieldTokens fields ++ .closeObject :: more).foldlM Reading.step (.nextKey met outer) =
      more.foldlM Reading.step (.ended (.object (met.reverse ++ fields)) outer)
  | [], _, _, _, present => absurd rfl present
  | [(key, v)], met, outer, more, _ => by
    have value := readTokens v (.fields met key :: outer) (.closeObject :: more)
    exact value.trans (by simp [Reading.step])
  | (key, v) :: f :: rest, met, outer, more, _ => by
    have tail := readFields (f :: rest) ((key, v) :: met) outer more (by simp)
    simp only [fieldTokens, List.append_assoc, List.cons_append]
    have value := readTokens v (.fields met key :: outer)
      (.comma :: (fieldTokens (f :: rest) ++ .closeObject :: more))
    exact value.trans (tail.trans (by simp))
end

/-- A printed value without numbers, all of whose strings have their contents, reads as the value. -/
theorem parseCompact {v : Json} (plain : v.Plain) : parse? v.compact = some v := by
  obtain ⟨s, run, met⟩ := cutsSpell plain []
  have cut : Token.ofText? v.spell = some v.tokens := by
    have finished := finishMet met
    simp [Token.ofText?, Scan.start, run, finished]
  have read := readTokens v [] []
  simp only [List.append_nil] at read
  simp [parse?, compact, cut, ofTokens?, read, Reading.finish?]

end Json
end GradualTypes
