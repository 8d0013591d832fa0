import GradualTypes.TypeName
import Mathlib.Data.List.Infix

/-! Words in display names. A display name puts class names together with brackets, commas, bars and blanks. A word
without such signs that turns up in it comes from the name of a class. -/
namespace GradualTypes

variable {α : Type} {p a b between : List α} {c : α}

/- A word without the sign lies on one side of it. -/
theorem infixBeside (absent : c ∉ p) (inside : p <:+: a ++ c :: b) : p <:+: a ∨ p <:+: b := by
  rcases List.infix_append_iff.mp inside with left | right | ⟨x, y, rfl, below, above⟩
  · exact .inl left
  · rcases List.infix_cons_iff.mp right with start | later
    · rcases List.prefix_cons_iff.mp start with rfl | ⟨t, rfl, -⟩
      · exact .inl List.nil_infix
      · exact absurd List.mem_cons_self absent
    · exact .inr later
  · rcases List.prefix_cons_iff.mp above with rfl | ⟨t, rfl, -⟩
    · rw [List.append_nil]
      exact .inl below.isInfix
    · exact absurd (List.mem_append_right x List.mem_cons_self) absent

theorem infixAcross (filled : p ≠ []) (parted : between ≠ []) (absent : ∀ c ∈ between, c ∉ p)
    (inside : p <:+: a ++ between ++ b) : p <:+: a ∨ p <:+: b := by
  induction between generalizing a with
  | nil => contradiction
  | cons c rest ih =>
    obtain ⟨first, others⟩ := List.forall_mem_cons.mp absent
    rw [List.append_assoc] at inside
    refine (infixBeside first inside).imp_right fun later => ?_
    by_cases last : rest = []
    · simpa [last] using later
    · exact (ih (a := []) last others later).resolve_left fun none => filled (List.infix_nil.mp none)

namespace Ty

def signs : List Char := ['(', ')', ',', '|', ' ']

/- What can stand in a display name only if a class name has it. -/
structure Word (p : List Char) : Prop where
  filled : p ≠ []
  apart : ∀ c ∈ signs, c ∉ p
  tuple : ¬ p <:+: "tuple".toList
  nameless : ¬ p <:+: namelessLabel.toList

def InClassName (classes : ClassTable) (p : List Char) : Prop :=
  ∃ c name, classes.name? c = some name ∧ p <:+: name.toList

variable {classes : ClassTable} {p : List Char} {l : Option String} {ls : List (Option String)} {separator : String}

theorem joinedWord (word : Word p) (parted : separator.toList ≠ []) (among : ∀ c ∈ separator.toList, c ∈ signs)
    (inside : p <:+: (joinLabels separator ls).toList) : ∃ l ∈ ls, p <:+: (l.getD namelessLabel).toList := by
  rw [joinLabels, String.toList_intercalate, List.map_map] at inside
  induction ls with
  | nil => exact absurd (List.infix_nil.mp inside) word.filled
  | cons l rest ih =>
    cases rest with
    | nil => exact ⟨l, List.mem_cons_self, by simpa using inside⟩
    | cons m more =>
      rw [List.map_cons, List.map_cons, List.intercalate_cons_cons] at inside
      rcases infixAcross word.filled parted (fun c sign => word.apart c (among c sign)) inside with first | others
      · exact ⟨l, List.mem_cons_self, first⟩
      · obtain ⟨k, member, found⟩ := ih others
        exact ⟨k, List.mem_cons_of_mem l member, found⟩

theorem memInsertLabel {m : Option String} : m ∈ insertLabel l ls ↔ m = l ∨ m ∈ ls := by
  induction ls with
  | nil => simp [insertLabel]
  | cons k ks ih =>
    rw [insertLabel]
    split
    · simp
    · simp [ih, or_left_comm]

theorem memSortLabels {m : Option String} : m ∈ sortLabels ls ↔ m ∈ ls := by
  induction ls with
  | nil => simp [sortLabels]
  | cons l ls ih => rw [sortLabels, memInsertLabel, ih, List.mem_cons]

theorem wordInClass (word : Word p) {c : ClassId}
    (inside : p <:+: ((classes.name? c).getD namelessLabel).toList) : InClassName classes p := by
  cases named : classes.name? c with
  | none =>
    rw [named] at inside
    exact absurd inside word.nameless
  | some name =>
    rw [named] at inside
    exact ⟨c, name, named, inside⟩

theorem labelsCons (classes : ClassTable) (t : Ty) (ts : List Ty) :
    ∃ l, labels classes (t :: ts) = l :: labels classes ts ∧ l.getD namelessLabel = t.displayName classes := by
  cases t <;> exact ⟨_, rfl, rfl⟩

mutual
theorem wordInName (word : Word p) : ∀ t : Ty, p <:+: (t.displayName classes).toList → InClassName classes p
  | .unknown, inside => absurd inside word.nameless
  | .missing, inside => absurd inside word.nameless
  | .reference _, inside => absurd inside word.nameless
  | .nominal none, inside => absurd inside word.nameless
  | .collection none _, inside => absurd inside word.nameless
  | .nominal (some _), inside => wordInClass word inside
  | .collection (some _) _, inside => wordInClass word inside
  | .tuple _ elements, inside => by
    have brackets : ("tuple(" ++ joinLabels ", " (labels classes elements) ++ ")").toList =
        "tuple".toList ++ '(' :: ((joinLabels ", " (labels classes elements)).toList ++ ')' :: []) := by
      simp
    rw [displayName, name?, Option.getD_some, brackets] at inside
    have behind := (infixBeside (word.apart '(' (by decide)) inside).resolve_left word.tuple
    have within := (infixBeside (word.apart ')' (by decide)) behind).resolve_right fun none =>
      word.filled (List.infix_nil.mp none)
    obtain ⟨l, member, found⟩ := joinedWord word (by decide) (by simp [signs]) within
    exact wordInLabel word elements l member found
  | .union members, inside => by
    rw [displayName, name?, Option.getD_some] at inside
    obtain ⟨l, member, found⟩ := joinedWord word (by decide) (by simp [signs]) inside
    exact wordInLabel word members l (memSortLabels.mp member) found

theorem wordInLabel (word : Word p) : ∀ ts : List Ty, ∀ l ∈ labels classes ts,
    p <:+: (l.getD namelessLabel).toList → InClassName classes p
  | [], l, member, _ => by simp [labels] at member
  | t :: ts, l, member, inside => by
    obtain ⟨first, split, named⟩ := labelsCons classes t ts
    rw [split] at member
    rcases List.mem_cons.mp member with rfl | later
    · exact wordInName word t (named ▸ inside)
    · exact wordInLabel word ts l later inside
end

end Ty
end GradualTypes
