import GradualTypes.Proofs.Unrolling

/-! Chains of references. A chain goes from a reference to the type it is bound to as long as that is a
reference again. It arrives at a type, stops at a reference that has none, or runs in a circle. What is
resolved is unknown exactly if the chain does not arrive within the budget: limits that are met behind the
type it arrives at leave parts of that type unknown, never the whole. -/
namespace GradualTypes.ReferenceTable

/- `Arrives t r reads ty`: from `r` on, the bindings of the references in `reads` are read one after the
other, and the last of them is bound to `ty`, which is known and no reference. -/
inductive Arrives (t : ReferenceTable) : RefId → List RefId → Ty → Prop where
  | here {r ty} (bound : t.binding? r = some ty) (known : ty ≠ .unknown) (proper : ∀ q, ty ≠ .reference q) :
      Arrives t r [r] ty
  | next {r q reads ty} (bound : t.binding? r = some (.reference q)) (later : Arrives t q reads ty) :
      Arrives t r (r :: reads) ty

def Linked (t : ReferenceTable) (r q : RefId) : Prop := t.binding? r = some (.reference q)

/- The chain of `r` comes to `q`. -/
def Follows (t : ReferenceTable) : RefId → RefId → Prop := Relation.ReflTransGen t.Linked

/- The chain comes to a reference that is not bound or bound to unknown. -/
def Stops (t : ReferenceTable) (r : RefId) : Prop :=
  ∃ q, t.Follows r q ∧ (t.binding? q = none ∨ t.binding? q = some .unknown)

def Circles (t : ReferenceTable) (r : RefId) : Prop := ∃ q, t.Follows r q ∧ Relation.TransGen t.Linked q q

variable {t : ReferenceTable} {q r : RefId} {reads reads' : List RefId} {ty ty' : Ty}

theorem arrivesLinked (arrives : t.Arrives r reads ty) (link : t.Linked r q) :
    ∃ rest, reads = r :: rest ∧ t.Arrives q rest ty := by
  cases arrives with
  | here bound known proper =>
    obtain rfl : ty = .reference q := Option.some.inj (bound.symm.trans link)
    exact absurd rfl (proper q)
  | @next _ p rest _ bound later =>
    obtain rfl : p = q := by
      have same := bound.symm.trans link
      simpa using same
    exact ⟨rest, rfl, later⟩

theorem arrivesFollowed (arrives : t.Arrives r reads ty) (follows : t.Follows r q) :
    ∃ rest, rest.length ≤ reads.length ∧ t.Arrives q rest ty := by
  induction follows with
  | refl => exact ⟨reads, Nat.le_refl _, arrives⟩
  | tail _ link ih =>
    obtain ⟨rest, shorter, later⟩ := ih
    obtain ⟨last, rfl, end'⟩ := arrivesLinked later link
    exact ⟨last, Nat.le_of_succ_le shorter, end'⟩

/- A reference has one chain only. -/
theorem arrivesUnique (arrives : t.Arrives r reads ty) (other : t.Arrives r reads' ty') : reads' = reads := by
  induction arrives generalizing reads' with
  | here bound known proper =>
    cases other with
    | here => rfl
    | @next _ q _ _ bound' _ => exact absurd (Option.some.inj (bound.symm.trans bound')) (proper q)
  | next bound later ih =>
    obtain ⟨rest, rfl, later'⟩ := arrivesLinked other bound
    rw [ih later']

theorem arrivesNotStops (arrives : t.Arrives r reads ty) : ¬ t.Stops r := by
  rintro ⟨q, follows, dead⟩
  obtain ⟨rest, -, later⟩ := arrivesFollowed arrives follows
  cases later with
  | here bound known proper => rcases dead with none' | unknown <;> simp_all
  | next bound later => rcases dead with none' | unknown <;> simp_all

theorem arrivesNotCircles (arrives : t.Arrives r reads ty) : ¬ t.Circles r := by
  rintro ⟨q, follows, circle⟩
  obtain ⟨rest, -, later⟩ := arrivesFollowed arrives follows
  -- Once round the circle, the chain would be shorter than itself.
  obtain ⟨p, link, back⟩ := Relation.TransGen.head'_iff.mp circle
  obtain ⟨last, rfl, onward⟩ := arrivesLinked later link
  obtain ⟨again, shorter, round⟩ := arrivesFollowed onward back
  rw [arrivesUnique later round, List.length_cons] at shorter
  omega

theorem arrivesReads (arrives : t.Arrives r reads ty) : ∀ q ∈ reads, t.Follows r q := by
  induction arrives with
  | here => simpa using .refl
  | next bound later ih =>
    refine List.forall_mem_cons.mpr ⟨.refl, fun q member => ?_⟩
    exact .head bound (ih q member)

theorem arrivesFresh (link : t.Linked r q) (later : t.Arrives q reads ty) : r ∉ reads := fun again =>
  arrivesNotCircles (.next link later) ⟨r, .refl, .head' link (arrivesReads later r again)⟩

/- Every chain ends in one of three ways: the references that it can still pass run out. -/
theorem chainEnds (t : ReferenceTable) (path : List RefId) (r : RefId)
    (passed : ∀ p ∈ path, Relation.TransGen t.Linked p r) :
    (∃ reads ty, t.Arrives r reads ty) ∨ t.Stops r ∨ t.Circles r := by
  by_cases again : r ∈ path
  · exact .inr (.inr ⟨r, .refl, passed r again⟩)
  · cases bound : t.binding? r with
    | none => exact .inr (.inl ⟨r, .refl, .inl bound⟩)
    | some target =>
      by_cases unknown : target = .unknown
      · exact .inr (.inl ⟨r, .refl, .inr (unknown ▸ bound)⟩)
      by_cases link : ∃ q, target = .reference q
      · obtain ⟨q, rfl⟩ := link
        have onward := chainEnds t (r :: path) q
          (List.forall_mem_cons.mpr ⟨.single bound, fun p member => (passed p member).tail bound⟩)
        rcases onward with ⟨reads, ty, arrives⟩ | ⟨p, follows, dead⟩ | ⟨p, follows, circle⟩
        · exact .inl ⟨r :: reads, ty, .next bound arrives⟩
        · exact .inr (.inl ⟨p, .head bound follows, dead⟩)
        · exact .inr (.inr ⟨p, .head bound follows, circle⟩)
      · exact .inl ⟨[r], target, .here bound unknown (fun q same => link ⟨q, same⟩)⟩
termination_by t.room 1 path
decreasing_by exact t.roomShrinks bound (by simp [List.count_eq_zero.mpr again])

/- However little budget there is, what is known and no reference stays known. -/
theorem unfoldKnown (t : ReferenceTable) (s : Unfolder) (known : ty ≠ .unknown)
    (proper : ∀ q, ty ≠ .reference q) : (t.unfold ty s).val.1 ≠ .unknown := by
  cases ty with
  | unknown => exact absurd rfl known
  | reference q => exact absurd rfl (proper q)
  | union members =>
    rw [unfold]
    exact Ty.unionOfUnknown
  | _ => simp [unfold]

/- The chain of a reference that is bound to another one is that of the other, with one more binding to be
read and one more reference open. -/
theorem arrivesEntered {s : Unfolder} (room : ¬ s.isSpent r) (link : t.Linked r q) :
    (∃ reads ty, t.Arrives q reads ty ∧ reads.length ≤ (s.enter r).budget ∧
        ∀ p ∈ reads, (s.enter r).depth p < Unfolder.nestingLimit) ↔
      ∃ reads ty, t.Arrives r reads ty ∧ reads.length ≤ s.budget ∧
        ∀ p ∈ reads, s.depth p < Unfolder.nestingLimit := by
  obtain ⟨shallow, left⟩ := Unfolder.roomLeft room
  have others : ∀ {reads ty}, t.Arrives q reads ty → ∀ p ∈ reads, (s.enter r).depth p = s.depth p := by
    intro reads ty later p member
    have other : p ≠ r := by
      rintro rfl
      exact arrivesFresh link later member
    rw [Unfolder.depthEnter, if_neg other]
  constructor
  · rintro ⟨reads, ty, later, fits, below⟩
    refine ⟨r :: reads, ty, .next link later, ?_, List.forall_mem_cons.mpr ⟨shallow, fun p member => ?_⟩⟩
    · simp only [Unfolder.enter] at fits
      simp only [List.length_cons]
      omega
    · rw [← others later p member]
      exact below p member
  · rintro ⟨reads, ty, arrives, fits, below⟩
    obtain ⟨rest, rfl, later⟩ := arrivesLinked arrives link
    refine ⟨rest, ty, later, ?_, fun p member => ?_⟩
    · simp only [List.length_cons] at fits
      simp only [Unfolder.enter]
      omega
    · rw [others later p member]
      exact below p (List.mem_cons_of_mem r member)

/- In any state, a reference is known exactly if its chain arrives within the budget and no reference on it
is open as often as the limit allows. -/
theorem expandKnown (t : ReferenceTable) (r : RefId) (s : Unfolder) :
    (t.expand r s).val.1 ≠ .unknown ↔ ∃ reads ty, t.Arrives r reads ty ∧ reads.length ≤ s.budget ∧
      ∀ q ∈ reads, s.depth q < Unfolder.nestingLimit := by
  by_cases spent : s.isSpent r
  · have closed : (t.expand r s).val.1 = .unknown := by
      rw [expand, dif_pos spent]
    refine iff_of_false (fun known => known closed) ?_
    rintro ⟨reads, ty, arrives, fits, shallow⟩
    have first : r ∈ reads := by cases arrives <;> exact List.mem_cons_self
    have least := List.length_pos_of_mem first
    have here := shallow r first
    simp only [Unfolder.isSpent, Bool.or_eq_true, decide_eq_true_eq] at spent
    omega
  have opened : (t.expand r s).val.1 = (t.unfold (t.direct r) (s.enter r)).val.1 := by
    rw [expand, dif_neg spent]
  rw [opened]
  by_cases dead : t.binding? r = none ∨ t.binding? r = some .unknown
  · have unknown : t.direct r = .unknown := by
      rcases dead with none' | bound <;> simp [direct, *]
    refine iff_of_false (fun known => known (by rw [unknown, unfold])) ?_
    rintro ⟨reads, ty, arrives, -⟩
    exact arrivesNotStops arrives ⟨r, .refl, dead⟩
  obtain ⟨target, bound⟩ : ∃ target, t.binding? r = some target :=
    Option.ne_none_iff_exists'.mp (fun none' => dead (.inl none'))
  have direct' : t.direct r = target := by rw [direct, bound, Option.getD_some]
  rw [direct']
  by_cases link : ∃ q, target = .reference q
  · obtain ⟨q, rfl⟩ := link
    have less := Unfolder.enterBudget spent
    rw [unfold, expandKnown t q (s.enter r)]
    exact arrivesEntered spent bound
  · have known : target ≠ .unknown := fun unknown => dead (.inr (unknown ▸ bound))
    have proper : ∀ q, target ≠ .reference q := fun q same => link ⟨q, same⟩
    have room := Unfolder.roomLeft spent
    exact iff_of_true (t.unfoldKnown _ known proper)
      ⟨[r], target, .here bound known proper, room.2, by simpa using room.1⟩
termination_by s.budget

/- Whether a chain arrives, and with how many bindings read, is all that decides, in three ways. -/
theorem lateEnds (t : ReferenceTable) (r : RefId) (limit : Nat) :
    (¬ ∃ reads ty, t.Arrives r reads ty ∧ reads.length ≤ limit) ↔
      t.Stops r ∨ t.Circles r ∨ ∃ reads ty, t.Arrives r reads ty ∧ limit < reads.length := by
  constructor
  · intro late
    rcases t.chainEnds [] r (by simp) with ⟨reads, ty, arrives⟩ | stops | circles
    · exact .inr (.inr ⟨reads, ty, arrives, Nat.lt_of_not_le fun fits => late ⟨reads, ty, arrives, fits⟩⟩)
    · exact .inl stops
    · exact .inr (.inl circles)
  · rintro ends ⟨reads, ty, arrives, fits⟩
    rcases ends with stops | circles | ⟨reads', ty', other, long⟩
    · exact arrivesNotStops arrives stops
    · exact arrivesNotCircles arrives circles
    · rw [arrivesUnique arrives other] at long
      omega

/-- A reference is unknown exactly if its chain does not arrive after at most 64 bindings: it stops, runs in a
circle, or is longer. Whatever budget is left and whatever is open, a chain that arrives in time makes it
known. -/
theorem unknownByChain (t : ReferenceTable) (r : RefId) :
    (t.resolve r = .unknown ↔ ¬ ∃ reads ty, t.Arrives r reads ty ∧ reads.length ≤ 64) ∧
      (t.resolve r = .unknown ↔
        t.Stops r ∨ t.Circles r ∨ ∃ reads ty, t.Arrives r reads ty ∧ 64 < reads.length) ∧
      ∀ s, (t.expand r s).val.1 ≠ .unknown ↔ ∃ reads ty, t.Arrives r reads ty ∧ reads.length ≤ s.budget ∧
        ∀ q ∈ reads, s.depth q < 3 := by
  have started : t.resolve r ≠ .unknown ↔ ∃ reads ty, t.Arrives r reads ty ∧ reads.length ≤ 64 := by
    have shallow : ∀ q, Unfolder.start.depth q < Unfolder.nestingLimit := by
      intro q
      rw [Unfolder.startAgrees q]
      simp [Unfolder.nestingLimit]
    rw [resolve, expandKnown]
    simp only [shallow, implies_true, and_true]
    rfl
  have unknown : t.resolve r = .unknown ↔ ¬ ∃ reads ty, t.Arrives r reads ty ∧ reads.length ≤ 64 :=
    not_ne_iff.symm.trans (not_congr started)
  exact ⟨unknown, unknown.trans (t.lateEnds r 64), t.expandKnown r⟩

/- With a budget of one, the binding of the reference is read and nothing behind it. -/
example : (expand ⟨1, [(1, .collection none (.reference 1))]⟩ 1 ⟨[], 1⟩).val.1 = .collection none .unknown := by
  cbv

end GradualTypes.ReferenceTable
