import GradualTypes.StringTable
import GradualTypes.Proofs.Associations
import Mathlib.Data.Finset.Card
import Mathlib.Logic.Relation

/-! Atoms stand for strings. In every shard the list of strings and the map of their atoms are inverse to each
other, and a string is only ever kept in the shard of its hash, the empty one in the first. Interning finds a
string or adds it under an atom that stood for nothing, so that through any calls atoms and strings
correspond one to one. -/
namespace GradualTypes

namespace Atom

theorem samePlace {a b : Atom} (shard : a.shard = b.shard) (place : a.place = b.place) : a = b := by
  cases a
  cases b
  exact congrArg Atom.mk (ShardNumber.distinct shard place)

end Atom

namespace StringTable

variable {t : StringTable} {k : Fin 64} {s : String} {a b : Atom}

theorem shardAt (t : StringTable) (k : Fin 64) : t.shards.toList[(k : Nat)]? = some (t.shard k) := by
  rw [Vector.getElem?_toList, Vector.getElem?_eq_getElem k.isLt]
  rfl

theorem shardsPush (t : StringTable) (k : Fin 64) (s : String) (a : Atom) :
    (t.push k s a).shards.toList = t.shards.toList.set k ((t.shard k).push s a) :=
  Vector.toList_setIfInBounds ..

theorem shardPush (t : StringTable) (k j : Fin 64) (s : String) (a : Atom) :
    (t.push k s a).shard j = if j = k then (t.shard k).push s a else t.shard j := by
  have held := (t.push k s a).shardAt j
  rw [shardsPush, List.getElem?_set, shardAt] at held
  split
  · rename_i same
    subst same
    simpa using held.symm
  · rename_i apart
    have other : (k : Nat) ≠ j := fun same => apart (Fin.ext same).symm
    simpa [other] using held.symm

theorem sizePush (t : StringTable) (k : Fin 64) (s : String) (a : Atom) :
    (t.push k s a).size = t.size + 1 := by
  have length : ((t.shard k).push s a).strings.length = (t.shard k).strings.length + 1 := by
    simp [StringShard.push]
  rw [size, size, shardsPush]
  exact countSetSucc (t.shardAt k) length

/- The next place of a shard. -/
structure Next (t : StringTable) (k : Fin 64) (a : Atom) : Prop where
  shard : a.shard = k
  place : a.place = (t.shard k).strings.length

theorem Next.free (next : t.Next k a) : t.text? a = none := by
  rw [text?, next.shard]
  exact List.getElem?_eq_none (Nat.le_of_eq next.place.symm)

theorem textPush (next : t.Next k a) (s : String) (b : Atom) :
    (t.push k s a).text? b = if b = a then some s else t.text? b := by
  rw [text?, shardPush]
  split
  · rename_i same
    rw [StringShard.push, List.getElem?_append]
    split
    · rename_i inside
      have other : b ≠ a := by
        rintro rfl
        exact Nat.lt_irrefl _ (next.place ▸ inside)
      rw [if_neg other, text?, same]
    · rename_i outside
      have beyond : t.text? b = none := by
        rw [text?, same]
        exact List.getElem?_eq_none (by omega)
      rw [beyond]
      split
      · rename_i equal
        have first : b.place - (t.shard k).strings.length = 0 := by rw [equal, next.place, Nat.sub_self]
        simp [first]
      · rename_i other
        have apart : b.place ≠ (t.shard k).strings.length := fun place =>
          other (Atom.samePlace (same.trans next.shard.symm) (place.trans next.place.symm))
        exact List.getElem?_eq_none (by simp; omega)
  · rename_i apart
    have other : b ≠ a := fun same => apart (same ▸ next.shard)
    rw [if_neg other, text?]

/- In each shard the atoms of strings lead back to the strings, and no others do. -/
def Inverse (t : StringTable) : Prop :=
  ∀ k s a, (t.shard k).atoms.lookup s = some a ↔ a.shard = k ∧ t.text? a = some s

theorem Inverse.push (inverse : t.Inverse) (fresh : (t.shard k).atoms.lookup s = none) (next : t.Next k a) :
    (t.push k s a).Inverse := by
  intro j u b
  have old : ∀ u, t.text? a ≠ some u := by simp [next.free]
  rw [shardPush, textPush next]
  split
  · rename_i same
    rw [StringShard.push, lookupFresh fresh, inverse k u b, same]
    by_cases equal : b = a
    · simp [equal, next.free, next.shard, eq_comm]
    · simp [equal]
  · rename_i apart
    rw [inverse j u b]
    have other : b.shard = j → b ≠ a := fun home same => apart (home ▸ same ▸ next.shard)
    exact and_congr_right fun home => by rw [if_neg (other home)]

/- A table is kept in order. -/
structure Kept (t : StringTable) : Prop where
  inverse : t.Inverse
  home : ∀ a s, t.text? a = some s → s = "" ∨ t.home s = a.shard
  blank : ∀ a, t.text? a = some "" ↔ a = .none
  limit : ∀ k, (t.shard k).strings.length ≤ ShardNumber.places

theorem Kept.distinct (kept : t.Kept) (left : t.text? a = some s) (right : t.text? b = some s) : a = b := by
  by_cases blank : s = ""
  · subst blank
    rw [(kept.blank a).mp left, (kept.blank b).mp right]
  · have leftHome := (kept.home a s left).resolve_left blank
    have rightHome := (kept.home b s right).resolve_left blank
    have found := (kept.inverse a.shard s a).mpr ⟨rfl, left⟩
    rw [(kept.inverse a.shard s b).mpr ⟨rightHome.symm.trans leftHome, right⟩] at found
    exact (Option.some.inj found).symm

/- The string is kept without a shard, or is there already, or its shard is not full. -/
def HasRoom (t : StringTable) (s : String) : Prop :=
  s = "" ∨ ((t.shard (t.home s)).atoms.lookup s).isSome ∨
    (t.shard (t.home s)).strings.length ≤ Atom.lastPlace.toNat

instance (t : StringTable) (s : String) : Decidable (t.HasRoom s) := by
  unfold HasRoom
  infer_instance

/- An atom is new and stands for a string that was not in the table; all else is as before. -/
structure Adds (t : StringTable) (s : String) (made : Atom × StringTable) : Prop where
  kept : made.2.Kept
  size : made.2.size = t.size + 1
  fresh : ∀ a, t.text? a ≠ some s
  free : t.text? made.1 = none
  text : ∀ a, made.2.text? a = if a = made.1 then some s else t.text? a

theorem Kept.push (kept : t.Kept) (known : s ≠ "") (next : t.Next (t.home s) a)
    (fresh : (t.shard (t.home s)).atoms.lookup s = none)
    (room : (t.shard (t.home s)).strings.length ≤ Atom.lastPlace.toNat) :
    t.Adds s (a, t.push (t.home s) s a) := by
  have text := textPush next s
  have first : t.text? .none = some "" := (kept.blank .none).mpr rfl
  refine ⟨⟨kept.inverse.push fresh next, fun b u found => ?_, fun b => ?_, fun j => ?_⟩, sizePush t _ s a,
    fun b found => ?_, next.free, text⟩
  · rw [text] at found
    split at found
    · rename_i same
      cases found
      exact .inr (same ▸ next.shard.symm)
    · exact kept.home b u found
  · rw [text]
    split
    · rename_i same
      have other : a ≠ .none := by
        rintro rfl
        simp [next.free] at first
      simp [same, known, other]
    · exact kept.blank b
  · have bound : Atom.lastPlace.toNat + 1 = ShardNumber.places := rfl
    rw [shardPush]
    split
    · simp only [StringShard.push, List.length_append, List.length_singleton]
      omega
    · exact kept.limit j
  · have home := (kept.home b s found).resolve_left known
    have there := (kept.inverse (t.home s) s b).mpr ⟨home.symm, found⟩
    rw [fresh] at there
    cases there

/- Interning finds the atom of a string, or adds one. -/
theorem Kept.intern (kept : t.Kept) (room : t.HasRoom s) :
    (t.intern s).2 = t ∧ t.text? (t.intern s).1 = some s ∨ t.Adds s (t.intern s) := by
  by_cases blank : s = ""
  · subst blank
    exact .inl ⟨rfl, (kept.blank .none).mpr rfl⟩
  cases found : (t.shard (t.home s)).atoms.lookup s with
  | some a =>
    have made : t.intern s = (a, t) := by simp [StringTable.intern, blank, found]
    rw [made]
    exact .inl ⟨rfl, ((kept.inverse _ s a).mp found).2⟩
  | none =>
    have space : (t.shard (t.home s)).strings.length ≤ Atom.lastPlace.toNat := by
      rcases room with same | there | space
      · exact absurd same blank
      · simp [found] at there
      · exact space
    have bound : Atom.lastPlace.toNat + 1 = ShardNumber.places := rfl
    have number : (UInt32.ofNat (t.shard (t.home s)).strings.length).toNat = (t.shard (t.home s)).strings.length :=
      UInt32.toNat_ofNat_of_lt' (Nat.lt_of_le_of_lt space (by decide))
    have below : ¬ Atom.lastPlace < UInt32.ofNat (t.shard (t.home s)).strings.length := by
      rw [UInt32.lt_iff_toNat_lt, number]
      omega
    have small : (UInt32.ofNat (t.shard (t.home s)).strings.length).toNat < ShardNumber.places := by omega
    obtain ⟨shard, place⟩ := ShardNumber.packed small (t.home s)
    have made : t.intern s =
        (.pack (UInt32.ofNat (t.shard (t.home s)).strings.length) (t.home s),
          t.push (t.home s) s (.pack (UInt32.ofNat (t.shard (t.home s)).strings.length) (t.home s))) := by
      simp [StringTable.intern, blank, found, below]
    rw [made]
    exact .inr (kept.push blank ⟨shard, place.trans number⟩ found space)

/- The table before the empty string is there. -/
def bare (hash : String → UInt64) : StringTable := ⟨hash, Vector.replicate 64 StringShard.empty⟩

theorem bareShard (hash : String → UInt64) (k : Fin 64) : (bare hash).shard k = StringShard.empty := by
  have inside := List.mem_of_getElem? ((bare hash).shardAt k)
  rw [bare, Vector.toList_replicate] at inside
  exact List.eq_of_mem_replicate inside

theorem bareText (hash : String → UInt64) (a : Atom) : (bare hash).text? a = none := by
  rw [text?, bareShard]
  rfl

theorem bareNext (hash : String → UInt64) : (bare hash).Next ShardNumber.first .none := ⟨rfl, by rw [bareShard]; rfl⟩

theorem emptyText (hash : String → UInt64) (a : Atom) :
    (empty hash).text? a = if a = .none then some "" else none := by
  have text := textPush (bareNext hash) "" a
  rw [bareText] at text
  exact text

theorem emptyKept (hash : String → UInt64) : (empty hash).Kept := by
  have inverse : (bare hash).Inverse := by
    intro k s a
    rw [bareShard, bareText]
    simp [StringShard.empty]
  refine ⟨inverse.push (by rw [bareShard]; rfl) (bareNext hash), fun a s found => ?_, fun a => ?_, fun k => ?_⟩
  · rw [emptyText] at found
    split at found
    · exact .inl (Option.some.inj found).symm
    · cases found
  · rw [emptyText]
    simp
  · have shard := shardPush (bare hash) ShardNumber.first k "" .none
    rw [bareShard, bareShard] at shard
    change (((bare hash).push ShardNumber.first "" .none).shard k).strings.length ≤ ShardNumber.places
    rw [shard]
    split <;> simp [StringShard.push, StringShard.empty, ShardNumber.places]

/- The strings are interned one by one and each finds room. -/
def AllRoom (t : StringTable) : List String → Prop
  | [] => True
  | s :: rest => t.HasRoom s ∧ (t.intern s).2.AllRoom rest

instance allRoomDecidable : (t : StringTable) → (strings : List String) → Decidable (t.AllRoom strings)
  | _, [] => .isTrue trivial
  | t, s :: rest =>
    have := allRoomDecidable (t.intern s).2 rest
    inferInstanceAs (Decidable (t.HasRoom s ∧ (t.intern s).2.AllRoom rest))

/- The strings with the atoms that they get when they are interned one by one, the last one first. -/
def given (t : StringTable) : List String → List (String × Atom)
  | [] => []
  | s :: rest => (t.intern s).2.given rest ++ [(s, (t.intern s).1)]

/- One call, at which no shard overflows. Each string that it interns is put in front of the earlier ones, with
its atom. -/
inductive Call : StringTable × List (String × Atom) → StringTable × List (String × Atom) → Prop
  | intern {t : StringTable} {gs : List (String × Atom)} (s : String) (room : t.HasRoom s) :
    Call (t, gs) ((t.intern s).2, (s, (t.intern s).1) :: gs)
  | internOwned {t : StringTable} {gs : List (String × Atom)} (s : String) (room : t.HasRoom s) :
    Call (t, gs) ((t.internOwned s).2, (s, (t.internOwned s).1) :: gs)
  | internCommon {t : StringTable} {gs : List (String × Atom)} (room : t.AllRoom common) :
    Call (t, gs) (t.internCommon, t.given common ++ gs)

def Calls : StringTable × List (String × Atom) → StringTable × List (String × Atom) → Prop :=
  Relation.ReflTransGen Call

/- What holds after every call: the strings of the table are those that were interned, each under the atom that
it got, and the empty one. -/
structure Serves (made : StringTable × List (String × Atom)) : Prop where
  kept : made.1.Kept
  given : ∀ p ∈ made.2, made.1.text? p.2 = some p.1
  known : ∀ a s, made.1.text? a = some s → a = .none ∨ (s, a) ∈ made.2
  count : made.1.size = ((made.2.map Prod.fst).toFinset.erase "").card + 1

/- What a later table still says. -/
def Retains (t later : StringTable) : Prop := ∀ a s, t.text? a = some s → later.text? a = some s

theorem Serves.intern {gs : List (String × Atom)} (serves : Serves (t, gs)) (room : t.HasRoom s) :
    Serves ((t.intern s).2, (s, (t.intern s).1) :: gs) ∧ t.Retains (t.intern s).2 := by
  rcases serves.kept.intern room with ⟨same, found⟩ | adds
  · rw [same]
    refine ⟨⟨serves.kept, List.forall_mem_cons.mpr ⟨found, serves.given⟩, fun a u there => ?_, ?_⟩, fun _ _ h => h⟩
    · exact (serves.known a u there).imp_right (List.mem_cons_of_mem _)
    · have count := serves.count
      rcases serves.known _ s found with blank | earlier
      · have empty : s = "" := by
          rw [blank, (serves.kept.blank .none).mpr rfl] at found
          exact (Option.some.inj found).symm
        simpa [empty] using count
      · have there : s ∈ (gs.map Prod.fst).toFinset := by
          simpa using ⟨_, earlier⟩
        simpa [Finset.insert_eq_of_mem there] using count
  · have kept : t.Retains (t.intern s).2 := by
      intro a u found
      rw [adds.text]
      split
      · rename_i same
        rw [same, adds.free] at found
        cases found
      · exact found
    refine ⟨⟨adds.kept, List.forall_mem_cons.mpr ⟨?_, fun p earlier => kept _ _ (serves.given p earlier)⟩,
      fun a u there => ?_, ?_⟩, kept⟩
    · rw [adds.text, if_pos rfl]
    · rw [adds.text] at there
      split at there
      · rename_i same
        cases there
        exact .inr (same ▸ List.mem_cons_self)
      · exact (serves.known a u there).imp_right (List.mem_cons_of_mem _)
    · have known : s ≠ "" := by
        rintro rfl
        exact adds.fresh .none ((serves.kept.blank .none).mpr rfl)
      have new : s ∉ (gs.map Prod.fst).toFinset := by
        intro there
        obtain ⟨p, earlier, rfl⟩ := List.mem_map.mp (List.mem_toFinset.mp there)
        exact adds.fresh p.2 (serves.given p earlier)
      have size := adds.size
      have count := serves.count
      simp only at count ⊢
      rw [size, count, List.map_cons, List.toFinset_cons, Finset.erase_insert_of_ne known,
        Finset.card_insert_of_notMem (fun there => new (Finset.mem_of_mem_erase there))]

theorem Serves.internAll {gs : List (String × Atom)} (serves : Serves (t, gs)) {strings : List String}
    (room : t.AllRoom strings) :
    Serves (t.internAll strings, t.given strings ++ gs) ∧ t.Retains (t.internAll strings) := by
  induction strings generalizing t gs with
  | nil => exact ⟨serves, fun _ _ h => h⟩
  | cons s rest ih =>
    obtain ⟨first, kept⟩ := serves.intern room.1
    obtain ⟨later, kept'⟩ := ih first room.2
    rw [StringTable.given, List.append_assoc]
    exact ⟨later, fun a u found => kept' a u (kept a u found)⟩

theorem Serves.call {made later : StringTable × List (String × Atom)} (serves : Serves made)
    (call : Call made later) : Serves later ∧ made.1.Retains later.1 := by
  cases call with
  | intern s room => exact serves.intern room
  | internOwned s room => exact serves.intern room
  | internCommon room =>
    simp only [internCommon]
    exact serves.internAll room

theorem Serves.calls {made later : StringTable × List (String × Atom)} (serves : Serves made)
    (calls : Calls made later) : Serves later ∧ made.1.Retains later.1 := by
  induction calls with
  | refl => exact ⟨serves, fun _ _ h => h⟩
  | tail _ last ih =>
    obtain ⟨before, kept⟩ := ih
    obtain ⟨after, kept'⟩ := before.call last
    exact ⟨after, fun a s found => kept' a s (kept a s found)⟩

theorem emptyServes (hash : String → UInt64) : Serves (empty hash, []) := by
  refine ⟨emptyKept hash, nofun, fun a s found => ?_, ?_⟩
  · rw [emptyText] at found
    split at found
    · exact .inl (by assumption)
    · cases found
  · have none : (bare hash).size = 0 := by simp [bare, size, StringShard.empty]
    have size := sizePush (bare hash) ShardNumber.first "" .none
    rw [none] at size
    exact size

/-- Atoms and strings correspond. From a new table, whatever the hash, and through any calls at which no shard
overflows, each string with the atom that it was given is on a list, those that a call for all the common ones
interns included. Then equal atoms are those of equal strings, the empty string alone has no atom of its own,
an atom leads back to its string after any later calls, and an atom that was never given leads to nothing. The
table counts one more than the nonempty strings. -/
theorem atomsNameStrings (hash : String → UInt64) {gs : List (String × Atom)}
    (made : Calls (empty hash, []) (t, gs)) :
    (∀ p ∈ gs, ∀ q ∈ gs, p.2 = q.2 ↔ p.1 = q.1) ∧
    (∀ p ∈ gs, p.2 = .none ↔ p.1 = "") ∧
    (∀ later gs', Calls (t, gs) (later, gs') →
      ∀ p ∈ gs, later.text? p.2 = some p.1 ∧ later.text p.2 = p.1) ∧
    (∀ a, a.raw ≠ 0 → (∀ p ∈ gs, p.2 ≠ a) → t.text? a = none ∧ t.text a = "") ∧
    t.size = ((gs.map Prod.fst).toFinset.erase "").card + 1 := by
  obtain ⟨serves, -⟩ := (emptyServes hash).calls made
  refine ⟨fun p inP q inQ => ⟨fun same => ?_, fun same => ?_⟩, fun p inP => ?_, fun later gs' calls p inP => ?_,
    fun a raw never => ?_, serves.count⟩
  · have left := serves.given p inP
    rw [same, serves.given q inQ] at left
    exact (Option.some.inj left).symm
  · exact serves.kept.distinct (serves.given p inP) (same ▸ serves.given q inQ)
  · have blank := serves.kept.blank p.2
    rw [serves.given p inP, Option.some.injEq] at blank
    exact blank.symm
  · have found := (serves.calls calls).2 p.2 p.1 (serves.given p inP)
    exact ⟨found, by rw [text, found]; rfl⟩
  · have absent : t.text? a = none := by
      cases found : t.text? a with
      | none => rfl
      | some s =>
        rcases serves.known a s found with first | given
        · exact absurd (congrArg Atom.raw first) raw
        · exact absurd rfl (never (s, a) given)
    exact ⟨absent, by rw [text, absent]; rfl⟩

/- With a hash that puts all strings in one shard. -/
theorem atomsCrowded :
    ∃ t gs, Calls (empty (fun _ => 0), []) (t, gs) ∧ ("cat", ⟨64⟩) ∈ gs ∧ ("", .none) ∈ gs ∧
      ("object", ⟨128⟩) ∈ gs ∧ t.text? ⟨64⟩ = some "cat" ∧ t.size = 34 := by
  have calls : Calls (empty (fun _ => 0), []) _ :=
    (((Relation.ReflTransGen.refl.tail (.intern "cat" (by decide +kernel))).tail
      (.internOwned "cat" (by decide +kernel))).tail (.intern "" (by decide +kernel))).tail
      (.internCommon (by decide +kernel))
  have names := atomsNameStrings _ calls
  refine ⟨_, _, calls, by decide +kernel, by decide +kernel, by decide +kernel,
    (names.2.2.1 _ _ .refl ("cat", ⟨64⟩) (by decide +kernel)).1, ?_⟩
  rw [names.2.2.2.2]
  decide +kernel

end StringTable
end GradualTypes
