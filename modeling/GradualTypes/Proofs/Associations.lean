import Mathlib.Data.List.Basic

/-! Association lists, of which a key may be taken out and another put in, and counts of which one goes up. -/
namespace GradualTypes

theorem lookupFresh {κ α : Type} [BEq κ] [LawfulBEq κ] {l : List (κ × α)} {k : κ} {a : α}
    (fresh : l.lookup k = none) {q : κ} {b : α} :
    (l ++ [(k, a)]).lookup q = some b ↔ l.lookup q = some b ∨ q = k ∧ b = a := by
  rw [List.lookup_append, Option.or_eq_some_iff, List.lookup_cons, List.lookup_nil]
  cases same : q == k with
  | true =>
    rw [eq_of_beq same]
    simp [fresh, eq_comm]
  | false => simp [ne_of_beq_false same]

variable {κ α : Type} [DecidableEq κ]

theorem lookupWithout (l : List (κ × α)) (k q : κ) :
    (l.filter (fun e => e.1 != k)).lookup q = if q = k then none else l.lookup q := by
  induction l with
  | nil => simp
  | cons a rest ih =>
    obtain ⟨j, n⟩ := a
    by_cases jk : j = k
    · subst jk
      by_cases qj : q = j
      · subst qj
        simpa using ih
      · have other : (q == j) = false := by simpa using qj
        simp [ih, qj, List.lookup_cons, other]
    · by_cases qj : q = j
      · subst qj
        simp [jk]
      · have other : (q == j) = false := by simpa using qj
        simp [jk, ih, List.lookup_cons, other]

/- A key put in again stands for its new entry only. -/
theorem lookupReplaced (l : List (κ × α)) (k q : κ) (a : α) :
    ((k, a) :: l.filter (fun e => e.1 != k)).lookup q = if q = k then some a else l.lookup q := by
  by_cases same : q = k
  · simp [same]
  · have other : (q == k) = false := by simpa using same
    simp [List.lookup_cons, other, lookupWithout, same]

theorem lookupAdded (l : List (κ × α)) (k q : κ) (a : α) :
    (l ++ [(k, a)]).lookup q = (l.lookup q).or (if q = k then some a else none) := by
  rw [List.lookup_append, List.lookup_cons, List.lookup_nil]
  by_cases same : q = k
  · simp [same]
  · have other : (q == k) = false := by simpa using same
    simp [other, same]

theorem countSetSucc {α : Type} {f : α → Nat} {l : List α} {i : Nat} {a b : α} (found : l[i]? = some a)
    (more : f b = f a + 1) : (l.set i b).foldr (fun x n => f x + n) 0 = l.foldr (fun x n => f x + n) 0 + 1 := by
  induction l generalizing i with
  | nil => simp at found
  | cons x rest ih =>
    cases i with
    | zero =>
      obtain rfl : x = a := by simpa using found
      simp only [List.set_cons_zero, List.foldr_cons, more]
      omega
    | succ i =>
      have tail := ih (i := i) (by simpa using found)
      simp only [List.set_cons_succ, List.foldr_cons, tail]
      omega

end GradualTypes
