import GradualTypes.TypeTable
import GradualTypes.Proofs.TypeTrees
import Mathlib.Data.List.Sort
import Mathlib.Data.List.Lex

/-! Unions by their members. Canonical members stand in one order, types by their codes and slots by their
ranks, so that they, and the union built of them, depend on what is a member and on nothing else. -/
namespace GradualTypes

namespace Ty

theorem codeOrder {t u : Ty} (apart : t ≠ u) (above : ¬ t.code < u.code) : u.code < t.code :=
  lt_of_le_of_ne (not_lt.mp above) (fun same => apart (codeInj same).symm)

theorem insertMemberSorted {t : Ty} {ts : List Ty} (sorted : ts.Pairwise (fun a b => a.code < b.code)) :
    (insertMember t ts).Pairwise (fun a b => a.code < b.code) := by
  induction ts with
  | nil => simp [insertMember]
  | cons u us ih =>
    obtain ⟨first, rest⟩ := List.pairwise_cons.mp sorted
    unfold insertMember
    split
    · exact sorted
    · rename_i apart
      split
      · rename_i less
        refine List.pairwise_cons.mpr ⟨fun v member => ?_, sorted⟩
        rcases List.mem_cons.mp member with rfl | later
        · exact less
        · exact lt_trans less (first v later)
      · rename_i above
        refine List.pairwise_cons.mpr ⟨fun v member => ?_, ih rest⟩
        rcases memInsertMember.mp member with rfl | later
        · exact codeOrder apart above
        · exact first v later

theorem canonicalSorted (ts : List Ty) : (canonical ts).Pairwise (fun a b => a.code < b.code) := by
  induction ts with
  | nil => exact List.Pairwise.nil
  | cons t ts ih => exact insertMemberSorted ih

/- Types in the order of their codes are the canonical members of whatever has the same members. -/
theorem canonicalOf {ts us : List Ty} (sorted : us.Pairwise (fun a b => a.code < b.code))
    (same : ∀ t, t ∈ us ↔ t ∈ ts) : canonical ts = us := by
  have asym : Std.Asymm (fun a b : Ty => a.code < b.code) := ⟨fun _ _ => lt_asymm⟩
  have irrefl : Std.Irrefl (fun a b : Ty => a.code < b.code) := ⟨fun _ => lt_irrefl _⟩
  exact (canonicalSorted ts).eq_of_mem_iff sorted (fun t => by simp [same])

theorem canonicalCongr {ts us : List Ty} (same : ∀ t, t ∈ ts ↔ t ∈ us) : canonical ts = canonical us :=
  canonicalOf (canonicalSorted us) (fun t => by simp [same])

theorem unionOfCongr {ts us : List Ty} (same : ∀ t, t ∈ ts ↔ t ∈ us) : unionOf ts = unionOf us := by
  rw [unionOf, unionOf, canonicalCongr same]

end Ty

namespace Slot

theorem rankInj {s u : Slot} (same : s.rank = u.rank) : s = u := by
  cases s with
  | none =>
    cases u with
    | none => rfl
    | some k => simp [rank] at same
  | some h =>
    cases u with
    | none => simp [rank] at same
    | some k =>
      have number : h.raw = k.raw := UInt32.toNat_inj.mp (Nat.succ.inj same)
      exact congrArg (fun raw => some (Handle.mk raw)) number

theorem memDedup {s : Slot} : ∀ {ss : List Slot}, s ∈ dedup ss ↔ s ∈ ss
  | [] => Iff.rfl
  | [_] => Iff.rfl
  | u :: v :: rest => by
    have tail : s ∈ dedup (v :: rest) ↔ s ∈ v :: rest := memDedup
    unfold dedup
    split
    · rename_i same
      rw [tail, same]
      simp
    · rw [List.mem_cons, tail, List.mem_cons (b := u)]

theorem dedupSorted : ∀ {ss : List Slot}, ss.Pairwise (fun s u => s.rank ≤ u.rank) →
    (dedup ss).Pairwise (fun s u => s.rank < u.rank)
  | [], _ => List.Pairwise.nil
  | [_], _ => by simp [dedup]
  | s :: u :: rest, sorted => by
    obtain ⟨first, later⟩ := List.pairwise_cons.mp sorted
    have tail := dedupSorted later
    unfold dedup
    split
    · exact tail
    · rename_i apart
      have less : s.rank < u.rank :=
        Nat.lt_of_le_of_ne (first u (by simp)) (fun same => apart (rankInj same))
      refine List.pairwise_cons.mpr ⟨fun v member => ?_, tail⟩
      rcases List.mem_cons.mp (memDedup.mp member) with rfl | inside
      · exact less
      · exact Nat.lt_of_lt_of_le less ((List.pairwise_cons.mp later).1 v inside)

@[simp] theorem memCanonical {s : Slot} {ss : List Slot} : s ∈ canonical ss ↔ s ∈ ss := by
  rw [canonical, memDedup, List.mem_mergeSort]

theorem canonicalSorted (ss : List Slot) : (canonical ss).Pairwise (fun s u => s.rank < u.rank) := by
  have sorted : (ss.mergeSort (fun s u => decide (s.rank ≤ u.rank))).Pairwise
      (fun s u => decide (s.rank ≤ u.rank) = true) := by
    refine List.pairwise_mergeSort (fun a b c left right => ?_) (fun a b => ?_) ss
    · simp only [decide_eq_true_eq] at left right ⊢
      exact Nat.le_trans left right
    · simp only [Bool.or_eq_true, decide_eq_true_eq]
      exact Nat.le_total a.rank b.rank
  exact dedupSorted (sorted.imp of_decide_eq_true)

theorem canonicalCongr {ss us : List Slot} (same : ∀ s, s ∈ ss ↔ s ∈ us) : canonical ss = canonical us := by
  have asym : Std.Asymm (fun s u : Slot => s.rank < u.rank) := ⟨fun _ _ => Nat.lt_asymm⟩
  have irrefl : Std.Irrefl (fun s u : Slot => s.rank < u.rank) := ⟨fun _ => Nat.lt_irrefl _⟩
  exact (canonicalSorted ss).eq_of_mem_iff (canonicalSorted us) (fun s => by simp [same])

end Slot

end GradualTypes
