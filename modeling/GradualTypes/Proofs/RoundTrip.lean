import Mathlib
import GradualTypes.Query
import GradualTypes.Manifest
import GradualTypes.Proofs.JsonText

/-! Written values read back. Expressions, manifests and query lists give themselves when they are written and
read again, as long as they nest no deeper than a reader goes; and what a reader has accepted never nests
deeper when it is written. -/
namespace GradualTypes

namespace Json

theorem stringPlain (s : String) : (string s).Plain := rfl

theorem stringsPlain (ss : List String) : (strings ss).Plain := by
  simp [strings, Plain, allPlainIff, stringPlain]

theorem stringDepth (s : String) : (string s).depth = 0 := rfl

theorem stringsDepth (ss : List String) : (strings ss).depth = 1 := by
  have flat : itemsDepth (ss.map string) ≤ 0 := by
    rw [itemsDepthLe]
    simp [stringDepth]
  simp only [strings, depth]
  omega

theorem listReads {read : Json → Option α} {write : α → Json} {xs : List α}
    (reads : ∀ x ∈ xs, read (write x) = some x) : listOf? read (.array (xs.map write)) = some xs := by
  simp only [listOf?]
  induction xs with
  | nil => rfl
  | cons x xs ih =>
    have head := reads x (by simp)
    have tail := ih (fun y member => reads y (by simp [member]))
    simp [List.mapM_cons, head, tail]

theorem listReadEach {read : Json → Option α} {items : List Json} : ∀ {xs : List α},
    listOf? read (.array items) = some xs → ∀ x ∈ xs, ∃ v ∈ items, read v = some x := by
  induction items with
  | nil =>
    intro xs all x member
    cases all
    cases member
  | cons v rest ih =>
    intro xs all x member
    simp only [listOf?, List.mapM_cons, Option.bind_eq_bind, Option.bind_eq_some_iff, Option.pure_def,
      Option.some.injEq] at all
    obtain ⟨y, head, ys, tail, rfl⟩ := all
    rcases List.mem_cons.mp member with rfl | later
    · exact ⟨v, by simp, head⟩
    · obtain ⟨w, inside, found⟩ := ih tail x later
      exact ⟨w, by simp [inside], found⟩

theorem stringsRead (ss : List String) : listOf? text? (strings ss) = some ss :=
  listReads (fun _ _ => rfl)

end Json

namespace TypeExpr
open Json

mutual
theorem toJsonPlain : ∀ e : TypeExpr, e.toJson.Plain
  | .unknown => trivial
  | .named _ => rfl
  | .union members => ⟨rfl, toJsonsPlain members, trivial⟩
  | .tuple elements => ⟨rfl, toJsonsPlain elements, trivial⟩
  | .collection _ element => ⟨rfl, rfl, rfl, toJsonPlain element, trivial⟩
  | .aliased _ => ⟨rfl, rfl, trivial⟩

theorem toJsonsPlain : ∀ es : List TypeExpr, AllPlain (toJsons es)
  | [] => trivial
  | e :: rest => ⟨toJsonPlain e, toJsonsPlain rest⟩
end

/- No form is taken for another one: the keys tell them apart, in the order in which they are tried. -/
mutual
theorem sensesToJson : ∀ e : TypeExpr, (Senses.ofJson e.toJson).expr? = some e
  | .unknown => rfl
  | .named _ => rfl
  | .union members => by
    have inner := sensesToJsons members
    simp [toJson, Senses.ofJson, Senses.ofMembers, Senses.ofFields, Senses.union?, Senses.under,
      Senses.only?, inner]
  | .tuple elements => by
    have inner := sensesToJsons elements
    simp [toJson, Senses.ofJson, Senses.ofMembers, Senses.ofFields, Senses.union?, Senses.tuple?,
      Senses.under, Senses.only?, inner]
  | .collection name element => by
    have inner := sensesToJson element
    simp [toJson, Senses.ofJson, Senses.ofMembers, Senses.ofFields, Senses.union?, Senses.tuple?,
      Senses.collection?, Senses.element?, Senses.under, Senses.only?, Json.string, inner]
  | .aliased _ => by
    simp [toJson, Senses.ofJson, Senses.ofMembers, Senses.ofFields, Senses.union?, Senses.tuple?,
      Senses.collection?, Senses.alias?, Senses.under, Senses.only?, Json.string]

theorem sensesToJsons : ∀ es : List TypeExpr, Senses.all? (Senses.ofItems (toJsons es)) = some es
  | [] => rfl
  | e :: rest => by
    have head := sensesToJson e
    have tail := sensesToJsons rest
    simp [toJsons, Senses.ofItems, Senses.all?, head, tail]
end

theorem readsToJson {e : TypeExpr} {level : Nat} (within : level + e.toJson.depth ≤ depthLimit) :
    ofJson? level e.toJson = some e := by
  rw [ofJson?, if_pos (plainReadable e.toJsonPlain within), sensesToJson]

namespace Senses

/- Whatever the value is taken for, it is written within this depth. -/
structure Within (n : Nat) (s : Senses) : Prop where
  expr : ∀ e, s.expr? = some e → e.toJson.depth ≤ n
  exprs : ∀ es, s.exprs? = some es → itemsDepth (toJsons es) + 1 ≤ n

theorem Within.mono {n k : Nat} {s : Senses} (within : s.Within n) (le : n ≤ k) : s.Within k :=
  ⟨fun e read => Nat.le_trans (within.expr e read) le, fun es read => Nat.le_trans (within.exprs es read) le⟩

theorem onlyUnder {key : String} {fields : List (Option String × Senses)} {s : Senses}
    (found : only? (under key fields) = some s) : (some key, s) ∈ fields := by
  have single : under key fields = [s] := by
    revert found
    unfold only?
    split <;> simp_all
  have member : s ∈ under key fields := by simp [single]
  simp only [under, List.mem_map, List.mem_filter, beq_iff_eq] at member
  obtain ⟨f, ⟨known, same⟩, rfl⟩ := member
  rwa [← same]

theorem fieldsWithin {fields : List (Option String × Senses)} {n : Nat}
    (within : ∀ f ∈ fields, f.2.Within n) : (ofFields fields).Within (n + 1) := by
  have list : ∀ {key es}, (only? (under key fields)).bind Senses.exprs? = some es →
      itemsDepth (toJsons es) + 1 ≤ n := by
    intro key es read
    obtain ⟨s, found, read⟩ := Option.bind_eq_some_iff.mp read
    exact (within _ (onlyUnder found)).exprs es read
  have element : ∀ {e}, element? fields = some e → e.toJson.depth ≤ n := by
    intro e read
    unfold element? at read
    split at read
    · cases read
      exact Nat.zero_le n
    · rename_i s single
      have found : only? (under "element" fields) = some s := by rw [single]; rfl
      exact (within _ (onlyUnder found)).expr e read
    · cases read
  refine ⟨fun e read => ?_, by simp [ofFields]⟩
  simp only [ofFields, Option.orElse_eq_orElse, Option.orElse_eq_or, Option.or_eq_some_iff] at read
  rcases read with union | ⟨-, tuple | ⟨-, collection | ⟨-, named⟩⟩⟩
  · obtain ⟨es, read, rfl⟩ := Option.map_eq_some_iff.mp union
    have inner := list read
    simp only [toJson, depth, fieldsDepth]
    omega
  · obtain ⟨es, read, rfl⟩ := Option.map_eq_some_iff.mp tuple
    have inner := list read
    simp only [toJson, depth, fieldsDepth]
    omega
  · unfold collection? at collection
    split at collection
    · rename_i name e _ read
      cases collection
      have inner := element read
      simp only [toJson, depth, fieldsDepth, stringDepth]
      omega
    · cases collection
  · obtain ⟨name, read, rfl⟩ := Option.map_eq_some_iff.mp named
    simp only [toJson, depth, fieldsDepth, stringDepth]
    omega

mutual
theorem ofJsonWithin : ∀ v : Json, (ofJson v).Within v.depth
  | .null => ⟨by simp [ofJson, toJson, depth], by simp [ofJson]⟩
  | .bool _ => ⟨by simp [ofJson, nothing], by simp [ofJson, nothing]⟩
  | .number _ => ⟨by simp [ofJson, nothing], by simp [ofJson, nothing]⟩
  | .text _ => ⟨by simp [ofJson, toJson, stringDepth], by simp [ofJson]⟩
  | .array items => ⟨by simp [ofJson], fun es read => Nat.succ_le_succ (ofItemsWithin items es read)⟩
  | .object fields => fieldsWithin (ofMembersWithin fields)

theorem ofItemsWithin : ∀ (items : List Json) (es : List TypeExpr), all? (ofItems items) = some es →
    itemsDepth (toJsons es) ≤ itemsDepth items
  | [], es, read => by
    cases read
    exact Nat.le_refl _
  | v :: rest, es, read => by
    simp only [ofItems, all?] at read
    split at read
    · rename_i e tail head others
      cases read
      have first := (ofJsonWithin v).expr e head
      have later := ofItemsWithin rest tail others
      simp only [toJsons, itemsDepth]
      omega
    · cases read

theorem ofMembersWithin : ∀ fields : List (Option String × Json),
    ∀ f ∈ ofMembers fields, f.2.Within (fieldsDepth fields)
  | [], _, member => by cases member
  | (key, v) :: rest, f, member => by
    rcases List.mem_cons.mp member with rfl | later
    · exact (ofJsonWithin v).mono (Nat.le_max_left _ _)
    · exact (ofMembersWithin rest f later).mono (Nat.le_max_right _ _)
end

end Senses

/- What is read out of a value is written no deeper than the value. -/
theorem readDepth {level : Nat} (inside : level ≤ depthLimit) {v : Json} {e : TypeExpr}
    (read : ofJson? level v = some e) : level + e.toJson.depth ≤ depthLimit := by
  unfold ofJson? at read
  split at read
  · rename_i readable
    have deep := readableDepth inside readable
    have shallow := (Senses.ofJsonWithin v).expr e read
    omega
  · cases read

end TypeExpr

namespace ClassStub
open Json

theorem readsToJson (s : ClassStub) : ofJson? s.toJson = some s := by
  obtain ⟨name, scope, bases, members⟩ := s
  have names := stringsRead bases
  have held := stringsRead members
  cases scope <;> simp [ofJson?, toJson, record?, fieldOf?, List.mapM_cons, orDefault?, optional?, text?, string,
    names, held]

theorem toJsonPlain (s : ClassStub) : s.toJson.Plain := by
  obtain ⟨name, scope, bases, members⟩ := s
  cases scope <;> simp [toJson, Plain, FieldsPlain, stringPlain, stringsPlain]

theorem toJsonDepth (s : ClassStub) : s.toJson.depth = 2 := by
  obtain ⟨name, scope, bases, members⟩ := s
  cases scope <;> simp [toJson, depth, fieldsDepth, stringDepth, stringsDepth]

end ClassStub

namespace ProtocolStub
open Json

theorem readsToJson (s : ProtocolStub) : ofJson? s.toJson = some s := by
  have requirements : listOf? (listOf? text?) (.array (s.requirements.map strings)) = some s.requirements :=
    listReads (fun ss _ => stringsRead ss)
  simp [ofJson?, toJson, record?, fieldOf?, List.mapM_cons, orDefault?, text?, string, requirements]

theorem toJsonPlain (s : ProtocolStub) : s.toJson.Plain := by
  simp [toJson, Plain, FieldsPlain, allPlainIff, stringPlain, stringsPlain]

theorem toJsonDepth (s : ProtocolStub) : s.toJson.depth ≤ 3 := by
  have inner : itemsDepth (s.requirements.map strings) ≤ 1 := by
    rw [itemsDepthLe]
    simp [stringsDepth]
  simp only [toJson, depth, fieldsDepth, stringDepth]
  omega

end ProtocolStub

namespace AliasMap
open Json

/- Every body is written no deeper than a manifest has room for. -/
def Shallow (m : AliasMap) : Prop := ∀ a ∈ m.entries, 2 + a.2.toJson.depth ≤ depthLimit

theorem putEntryFresh {name : String} {body : TypeExpr} {entries : List (String × TypeExpr)}
    (fresh : name ∉ entries.map Prod.fst) : putEntry name body entries = entries ++ [(name, body)] := by
  induction entries with
  | nil => rfl
  | cons a rest ih =>
    simp only [List.map_cons, List.mem_cons, not_or] at fresh
    have other : a.1 ≠ name := fun same => fresh.1 same.symm
    simp [putEntry, other, ih fresh.2]

theorem memPutEntry {name : String} {body : TypeExpr} {entries : List (String × TypeExpr)}
    {a : String × TypeExpr} (member : a ∈ putEntry name body entries) : a = (name, body) ∨ a ∈ entries := by
  induction entries with
  | nil => simpa [putEntry] using member
  | cons b rest ih =>
    unfold putEntry at member
    split at member
    · rcases List.mem_cons.mp member with same | later
      · exact .inl same
      · exact .inr (List.mem_cons_of_mem b later)
    · rcases List.mem_cons.mp member with same | later
      · exact .inr (by simp [same])
      · exact (ih later).imp_right (List.mem_cons_of_mem b)

theorem putFieldsFresh {rest : List (String × TypeExpr)} : ∀ {m : AliasMap},
    ((m.entries ++ rest).map Prod.fst).Nodup → (∀ a ∈ rest, 2 + a.2.toJson.depth ≤ depthLimit) →
    ∃ r, m.putFields? (rest.map (fun a => (some a.1, a.2.toJson))) = some r ∧
      r.entries = m.entries ++ rest := by
  induction rest with
  | nil => exact fun {m} _ _ => ⟨m, rfl, by simp⟩
  | cons a rest ih =>
    intro m distinct shallow
    have fresh : a.1 ∉ m.entries.map Prod.fst := by
      simp only [List.map_append, List.map_cons, List.nodup_append] at distinct
      exact fun known => distinct.2.2 a.1 known a.1 (by simp) rfl
    have entries : (m.put a.1 a.2).entries = m.entries ++ [a] := putEntryFresh fresh
    obtain ⟨r, put, last⟩ := ih (m := m.put a.1 a.2) (by simpa [entries] using distinct)
      (fun b member => shallow b (by simp [member]))
    have body := TypeExpr.readsToJson (shallow a (by simp))
    exact ⟨r, by simp [putFields?, body, put], by simp [last, entries]⟩

theorem readsToJson {m : AliasMap} (shallow : m.Shallow) : ofJson? m.toJson = some m := by
  obtain ⟨r, put, entries⟩ := putFieldsFresh (m := empty) (by simpa [empty] using m.distinct) shallow
  have same : r = m := by
    cases r
    cases m
    simpa [empty] using entries
  rw [toJson, ofJson?, put, same]

theorem emptyShallow : empty.Shallow := by simp [Shallow, empty]

theorem putFieldsShallow {fields : List (Option String × Json)} : ∀ {m r : AliasMap}, m.Shallow →
    m.putFields? fields = some r → r.Shallow := by
  induction fields with
  | nil =>
    intro m r shallow put
    cases put
    exact shallow
  | cons f rest ih =>
    intro m r shallow put
    simp only [putFields?, Option.bind_eq_bind, Option.bind_eq_some_iff] at put
    obtain ⟨name, -, body, read, put⟩ := put
    refine ih (fun a member => ?_) put
    rcases memPutEntry member with rfl | old
    · exact TypeExpr.readDepth (by decide) read
    · exact shallow a old

theorem readShallow {v : Json} {m : AliasMap} (read : ofJson? v = some m) : m.Shallow := by
  cases v with
  | object fields => exact putFieldsShallow emptyShallow read
  | _ => cases read

theorem toJsonPlain (m : AliasMap) : m.toJson.Plain := by
  simp only [toJson, Plain, fieldsPlainIff, List.forall_mem_map]
  exact fun a _ => ⟨rfl, a.2.toJsonPlain⟩

end AliasMap

namespace Manifest
open Json

theorem toJsonPlain (m : Manifest) : m.toJson.Plain := by
  simp [toJson, Plain, FieldsPlain, allPlainIff, ClassStub.toJsonPlain, ProtocolStub.toJsonPlain,
    AliasMap.toJsonPlain]

theorem shallowIff (m : Manifest) : m.toJson.depth ≤ depthLimit ↔ m.aliases.Shallow := by
  have classes : itemsDepth (m.classes.map ClassStub.toJson) ≤ 2 := by
    rw [itemsDepthLe]
    simp [ClassStub.toJsonDepth]
  have protocols : itemsDepth (m.protocols.map ProtocolStub.toJson) ≤ 3 := by
    rw [itemsDepthLe]
    simp [ProtocolStub.toJsonDepth]
  have bodies : fieldsDepth (m.aliases.entries.map (fun a => (some a.1, a.2.toJson))) ≤ depthLimit - 2 ↔
      m.aliases.Shallow := by
    rw [fieldsDepthLe, AliasMap.Shallow]
    simp only [List.forall_mem_map, depthLimit]
    exact forall₂_congr (fun a _ => by omega)
  rw [← bodies]
  simp only [toJson, AliasMap.toJson, depth, fieldsDepth, depthLimit]
  omega

theorem readsToJson {m : Manifest} (shallow : m.aliases.Shallow) : ofJson? m.toJson = some m := by
  have classes : listOf? ClassStub.ofJson? (.array (m.classes.map ClassStub.toJson)) = some m.classes :=
    listReads (fun s _ => s.readsToJson)
  have protocols : listOf? ProtocolStub.ofJson? (.array (m.protocols.map ProtocolStub.toJson)) =
      some m.protocols := listReads (fun s _ => s.readsToJson)
  have aliases := AliasMap.readsToJson shallow
  simp [ofJson?, toJson, record?, fieldOf?, List.mapM_cons, orDefault?, classes, protocols, aliases]

theorem readShallow {v : Json} {m : Manifest} (read : ofJson? v = some m) : m.aliases.Shallow := by
  simp only [ofJson?, Option.bind_eq_bind, Option.bind_eq_some_iff] at read
  obtain ⟨values, -, read⟩ := read
  split at read
  · rename_i classes protocols aliases
    simp only [Option.bind_eq_some_iff, Option.some.injEq] at read
    obtain ⟨_, -, _, -, map, found, rfl⟩ := read
    cases aliases with
    | none =>
      cases found
      exact AliasMap.emptyShallow
    | some w => exact AliasMap.readShallow found
  · cases read

theorem readsToText {m : Manifest} (shallow : m.aliases.Shallow) : ofText? m.toText = some m := by
  rw [ofText?, toText, parseCompact m.toJsonPlain]
  exact readsToJson shallow

end Manifest

namespace Query
open Json

/- Both types are written no deeper than a list of queries has room for. -/
def Shallow (q : Query) : Prop :=
  2 + q.expected.toJson.depth ≤ depthLimit ∧ 2 + q.actual.toJson.depth ≤ depthLimit

theorem toJsonPlain (q : Query) : q.toJson.Plain := by
  obtain ⟨expected, actual, expect⟩ := q
  cases expect <;> simp [toJson, expectField, Plain, FieldsPlain, TypeExpr.toJsonPlain]

theorem shallowIff (q : Query) : q.toJson.depth ≤ depthLimit - 1 ↔ q.Shallow := by
  obtain ⟨expected, actual, expect⟩ := q
  cases expect <;>
    simp only [toJson, expectField, Shallow, depth, fieldsDepth, List.cons_append, List.nil_append,
      depthLimit] <;> omega

theorem readsToJson {q : Query} (shallow : q.Shallow) : ofJson? q.toJson = some q := by
  obtain ⟨expected, actual, expect⟩ := q
  have left := TypeExpr.readsToJson shallow.1
  have right := TypeExpr.readsToJson shallow.2
  cases expect <;>
    simp [ofJson?, toJson, expectField, record?, fieldOf?, List.mapM_cons, orDefault?, optional?, bool?,
      left, right]

theorem readShallow {v : Json} {q : Query} (read : ofJson? v = some q) : q.Shallow := by
  have within : ∀ {w : Option Json} {e : TypeExpr},
      orDefault? (TypeExpr.ofJson? 2) .unknown w = some e → 2 + e.toJson.depth ≤ depthLimit := by
    intro w e read
    cases w with
    | none =>
      cases read
      decide
    | some w => exact TypeExpr.readDepth (by decide) read
  simp only [ofJson?, Option.bind_eq_bind, Option.bind_eq_some_iff] at read
  obtain ⟨values, -, read⟩ := read
  split at read
  · rename_i expected actual expect
    simp only [Option.bind_eq_some_iff, Option.some.injEq] at read
    obtain ⟨_, left, _, right, _, -, rfl⟩ := read
    exact ⟨within left, within right⟩
  · cases read

theorem listShallowIff {qs : List Query} :
    (Json.array (qs.map toJson)).depth ≤ depthLimit ↔ ∀ q ∈ qs, q.Shallow := by
  have each : itemsDepth (qs.map toJson) ≤ depthLimit - 1 ↔ ∀ q ∈ qs, q.Shallow := by
    simp only [itemsDepthLe, List.forall_mem_map, shallowIff]
  rw [← each]
  simp only [depth, depthLimit]
  omega

theorem listReadsToText {qs : List Query} (shallow : ∀ q ∈ qs, q.Shallow) :
    listOfText? (listToText qs) = some qs := by
  have plain : (Json.array (qs.map toJson)).Plain := by simp [Plain, allPlainIff, toJsonPlain]
  rw [listOfText?, listToText, parseCompact plain]
  exact listReads (fun q member => readsToJson (shallow q member))

theorem listReadShallow {v : Json} {qs : List Query} (read : listOf? ofJson? v = some qs) :
    ∀ q ∈ qs, q.Shallow := by
  cases v with
  | array items =>
    intro q member
    obtain ⟨w, -, found⟩ := listReadEach read q member
    exact readShallow found
  | _ => cases read

end Query

theorem TypeExpr.readsToText {e : TypeExpr} (within : e.toJson.depth ≤ Json.depthLimit) :
    ofText? e.toJson.compact = some e := by
  rw [ofText?, Json.parseCompact e.toJsonPlain]
  exact readsToJson (by omega)

/-- Manifests, type expressions and query lists that were read out of a text are read again, unchanged, out of
the text they are written as; and so is every one whose text nests at most 127 levels, expressions also
where they are given as arguments. -/
theorem roundTrip :
    (∀ (s : String) (m : Manifest), Manifest.ofText? s = some m → Manifest.ofText? m.toText = some m) ∧
    (∀ (s : String) (e : TypeExpr), TypeExpr.ofText? s = some e →
      TypeExpr.ofText? e.toJson.compact = some e ∧ TypeExpr.ofArgument e.toJson.compact = e) ∧
    (∀ (s : String) (qs : List Query), Query.listOfText? s = some qs →
      Query.listOfText? (Query.listToText qs) = some qs) ∧
    (∀ m : Manifest, m.toJson.depth ≤ 127 → Manifest.ofText? m.toText = some m) ∧
    (∀ e : TypeExpr, e.toJson.depth ≤ 127 →
      TypeExpr.ofText? e.toJson.compact = some e ∧ TypeExpr.ofArgument e.toJson.compact = e) ∧
    (∀ qs : List Query, (Json.array (qs.map Query.toJson)).depth ≤ 127 →
      Query.listOfText? (Query.listToText qs) = some qs) := by
  have expressions : ∀ e : TypeExpr, e.toJson.depth ≤ 127 →
      TypeExpr.ofText? e.toJson.compact = some e ∧ TypeExpr.ofArgument e.toJson.compact = e := by
    intro e within
    have reads := TypeExpr.readsToText within
    exact ⟨reads, by rw [TypeExpr.ofArgument, reads, Option.getD_some]⟩
  refine ⟨?_, ?_, ?_, ?_, expressions, ?_⟩
  · intro s m read
    obtain ⟨v, -, read⟩ := Option.bind_eq_some_iff.mp read
    exact Manifest.readsToText (Manifest.readShallow read)
  · intro s e read
    obtain ⟨v, -, read⟩ := Option.bind_eq_some_iff.mp read
    have within := TypeExpr.readDepth (Nat.zero_le _) read
    exact expressions e (Nat.le_trans (Nat.le_add_left _ 0) within)
  · intro s qs read
    obtain ⟨v, -, read⟩ := Option.bind_eq_some_iff.mp read
    exact Query.listReadsToText (Query.listReadShallow read)
  · intro m within
    exact Manifest.readsToText (m.shallowIff.mp within)
  · intro qs within
    exact Query.listReadsToText (Query.listShallowIff.mp within)

/- Records spelled as arrays, a key that does not count, an escaped letter, and an alias given twice. -/
def looseText : String :=
  "[[[\"Bag\"]],[],\x7b\"Id\":\"int\",\"Up\":\x7b\"ref\":\"I\\u0064\",\"x\":[]\x7d,\"Id\":null\x7d]"

def looseManifest : Manifest :=
  ⟨[⟨"Bag", none, [], []⟩], [], ⟨[("Id", .unknown), ("Up", .aliased "Id")], by decide⟩⟩

theorem looseManifestRead :
    Manifest.ofText? looseText = some looseManifest ∧
      Manifest.ofText? looseManifest.toText = some looseManifest := by
  have read : Manifest.ofText? looseText = some looseManifest := by cbv
  exact ⟨read, roundTrip.1 looseText looseManifest read⟩

end GradualTypes
