import GradualTypes.ReferenceTable
import GradualTypes.Proofs.Associations
import GradualTypes.Proofs.TypeTrees

/-! Runs of the unfolder. `Run` spells out what unfolding a row of types does, step by step and with no
bound on how long it may take; every row has a run, and it leads to the answers that are computed. On a
run each binding that is read costs budget, every count of open references is put back, and no reference
is left in an answer. -/
namespace GradualTypes

namespace Unfolder

theorem depthEnter (s : Unfolder) (r q : RefId) :
    (s.enter r).depth q = if q = r then s.depth r + 1 else s.depth q := by
  simp only [depth, enter, others, lookupReplaced]
  split <;> rfl

theorem depthLeave (s : Unfolder) (r q : RefId) (n : Nat) :
    (s.leave r n).depth q = if q = r then n else s.depth q := by
  by_cases closed : n = 0
  · simp only [depth, leave, others, closed, if_true, lookupWithout]
    split <;> rfl
  · simp only [depth, leave, others, closed, if_false, lookupReplaced]
    split <;> rfl

/- The counts are those of a path of open references. -/
def Agrees (s : Unfolder) (path : List RefId) : Prop := ∀ q, s.depth q = path.count q

theorem startAgrees : start.Agrees [] := fun _ => rfl

theorem enterAgrees {s : Unfolder} {path : List RefId} (agrees : s.Agrees path) (r : RefId) :
    (s.enter r).Agrees (r :: path) := by
  intro q
  rw [depthEnter]
  by_cases same : q = r
  · subst same
    simp [agrees q]
  · have other : r ≠ q := fun h => same h.symm
    simp [same, List.count_cons_of_ne other, agrees q]

theorem roomLeft {s : Unfolder} {r : RefId} (room : ¬ s.isSpent r) :
    s.depth r < nestingLimit ∧ 0 < s.budget := by
  simp only [isSpent, Bool.or_eq_true, decide_eq_true_eq, not_or] at room
  omega

end Unfolder

namespace ReferenceTable

/- `Run t path types s answers s' reads`: inside the open references of `path`, the newest first, the
types are unfolded from state `s` into the answers and state `s'`. For every binding that is read, `reads`
has the references open at that point. -/
inductive Run (t : ReferenceTable) :
    List RefId → List Ty → Unfolder → List Ty → Unfolder → List (List RefId) → Prop where
  | done {path s} : Run t path [] s [] s []
  | plain {path ty rest s us s' reads}
      (leaf : ty = .unknown ∨ ty = .missing ∨ ∃ c, ty = .nominal c)
      (later : Run t path rest s us s' reads) : Run t path (ty :: rest) s (ty :: us) s' reads
  | cut {path r rest s us s' reads} (spent : s.isSpent r)
      (later : Run t path rest s us s' reads) :
      Run t path (.reference r :: rest) s (.unknown :: us) s' reads
  | opened {path r rest s u inner us s' within after} (room : ¬ s.isSpent r)
      (inside : Run t (r :: path) [t.direct r] (s.enter r) [u] inner within)
      (later : Run t path rest (inner.leave r (s.depth r)) us s' after) :
      Run t path (.reference r :: rest) s (u :: us) s' ((r :: path) :: (within ++ after))
  | collection {path c element rest s u inner us s' within after}
      (inside : Run t path [element] s [u] inner within)
      (later : Run t path rest inner us s' after) :
      Run t path (.collection c element :: rest) s (.collection c u :: us) s' (within ++ after)
  | tuple {path c elements rest s es inner us s' within after}
      (inside : Run t path elements s es inner within)
      (later : Run t path rest inner us s' after) :
      Run t path (.tuple c elements :: rest) s (.tuple c es :: us) s' (within ++ after)
  | union {path members rest s ms inner us s' within after}
      (inside : Run t path members s ms inner within)
      (later : Run t path rest inner us s' after) :
      Run t path (.union members :: rest) s (Ty.unionOf ms :: us) s' (within ++ after)

/- A type can be unfolded in front of any row that has a run from the state it leaves behind. -/
def Leads (t : ReferenceTable) (ty : Ty) (s : Unfolder) (answer : Ty) (next : Unfolder) : Prop :=
  ∀ {path rest us s' after}, Run t path rest next us s' after →
    ∃ reads, Run t path (ty :: rest) s (answer :: us) s' reads

theorem leadsAlone {t : ReferenceTable} {ty : Ty} {s : Unfolder} {answer : Ty} {next : Unfolder}
    (leads : t.Leads ty s answer next) (path : List RefId) :
    ∃ reads, Run t path [ty] s [answer] next reads := leads .done

theorem unfoldAllRuns (t : ReferenceTable) (types : List Ty) (s : Unfolder) :
    ∀ path, ∃ reads, Run t path types s (t.unfoldAll types s).val.1 (t.unfoldAll types s).val.2 reads := by
  refine unfoldAll.induct t
    (fun r s => t.Leads (.reference r) s (t.expand r s).val.1 (t.expand r s).val.2)
    (fun ty s => t.Leads ty s (t.unfold ty s).val.1 (t.unfold ty s).val.2)
    (fun types s => ∀ path, ∃ reads,
      Run t path types s (t.unfoldAll types s).val.1 (t.unfoldAll types s).val.2 reads)
    ?cut ?opened ?unknown ?missing ?reference ?nominal ?collection ?tuple ?union ?nil ?cons types s
  case cut =>
    intro r s spent path rest us s' after later
    simp only [expand, spent, dite_true] at later ⊢
    exact ⟨_, .cut spent later⟩
  case opened =>
    intro r s room ih path rest us s' after later
    simp only [expand, room] at later ⊢
    obtain ⟨within, inside⟩ := leadsAlone ih (r :: path)
    exact ⟨_, .opened room inside later⟩
  case unknown =>
    intro s path rest us s' after later
    simp only [unfold] at later ⊢
    exact ⟨_, .plain (.inl rfl) later⟩
  case missing =>
    intro s path rest us s' after later
    simp only [unfold] at later ⊢
    exact ⟨_, .plain (.inr (.inl rfl)) later⟩
  case reference =>
    intro s r ih path rest us s' after later
    simp only [unfold] at later ⊢
    exact ih later
  case nominal =>
    intro s c path rest us s' after later
    simp only [unfold] at later ⊢
    exact ⟨_, .plain (.inr (.inr ⟨c, rfl⟩)) later⟩
  case collection =>
    intro s c element ih path rest us s' after later
    simp only [unfold] at later ⊢
    obtain ⟨within, inside⟩ := leadsAlone ih path
    exact ⟨_, .collection inside later⟩
  case tuple =>
    intro s c elements ih path rest us s' after later
    simp only [unfold] at later ⊢
    obtain ⟨within, inside⟩ := ih path
    exact ⟨_, .tuple inside later⟩
  case union =>
    intro s members ih path rest us s' after later
    simp only [unfold] at later ⊢
    obtain ⟨within, inside⟩ := ih path
    exact ⟨_, .union inside later⟩
  case nil =>
    intro s path
    simp only [unfoldAll]
    exact ⟨_, .done⟩
  case cons =>
    intro s ty rest head ih _ later path
    simp only [unfoldAll]
    obtain ⟨after, tail⟩ := later path
    exact ih tail

theorem resolveRuns (t : ReferenceTable) (r : RefId) :
    ∃ final reads, Run t [] [.reference r] .start [t.resolve r] final reads := by
  obtain ⟨reads, run⟩ := t.unfoldAllRuns [.reference r] .start []
  simp only [unfoldAll, unfold] at run
  exact ⟨_, reads, run⟩

variable {t : ReferenceTable} {path : List RefId} {types answers : List Ty} {s s' : Unfolder}
  {reads : List (List RefId)}

theorem runSpends (run : Run t path types s answers s' reads) :
    reads.length + s'.budget = s.budget := by
  induction run with
  | done => simp
  | plain leaf later ih => exact ih
  | cut spent later ih => exact ih
  | opened room inside later ihInside ihLater =>
    have left := (Unfolder.roomLeft room).2
    simp only [Unfolder.enter, Unfolder.leave] at ihInside ihLater
    simp only [List.length_cons, List.length_append]
    omega
  | collection inside later ihInside ihLater | tuple inside later ihInside ihLater
  | union inside later ihInside ihLater =>
    simp only [List.length_append]
    omega

theorem runRestores (run : Run t path types s answers s' reads) : ∀ q, s'.depth q = s.depth q := by
  induction run with
  | done => intro q; rfl
  | plain leaf later ih => exact ih
  | cut spent later ih => exact ih
  | @opened path r rest s u inner us s' within after room inside later ihInside ihLater =>
    intro q
    rw [ihLater, Unfolder.depthLeave]
    by_cases same : q = r
    · simp [same]
    · rw [if_neg same, ihInside, Unfolder.depthEnter, if_neg same]
  | collection inside later ihInside ihLater | tuple inside later ihInside ihLater
  | union inside later ihInside ihLater =>
    intro q
    rw [ihLater, ihInside]

theorem runKeepsAgreement (run : Run t path types s answers s' reads) {other : List RefId}
    (agrees : s.Agrees other) : s'.Agrees other := by
  intro q
  rw [runRestores run, agrees q]

theorem leaveAgrees {r : RefId} {inner : Unfolder} {u : Ty} {rest : List RefId}
    (inside : Run t path [t.direct r] (s.enter r) [u] inner reads) (agrees : s.Agrees rest) :
    (inner.leave r (s.depth r)).Agrees rest := by
  intro q
  rw [Unfolder.depthLeave, runRestores inside, Unfolder.depthEnter]
  by_cases same : q = r
  · simp [same, agrees r]
  · simp [same, agrees q]

/- However the bindings refer to each other, no reference is open more often than the limit allows. -/
theorem runNesting (run : Run t path types s answers s' reads) (agrees : s.Agrees path)
    (bounded : ∀ q, path.count q ≤ Unfolder.nestingLimit) :
    ∀ opened ∈ reads, ∀ q, opened.count q ≤ Unfolder.nestingLimit := by
  induction run with
  | done => simp
  | plain leaf later ih => exact ih agrees bounded
  | cut spent later ih => exact ih agrees bounded
  | @opened path r rest s u inner us s' within after room inside later ihInside ihLater =>
    have nested : ∀ q, (r :: path).count q ≤ Unfolder.nestingLimit := by
      intro q
      by_cases same : q = r
      · subst same
        have shallow := (Unfolder.roomLeft room).1
        rw [agrees q] at shallow
        rw [List.count_cons_self]
        exact shallow
      · rw [List.count_cons_of_ne (fun h => same h.symm)]
        exact bounded q
    intro read member
    rcases List.mem_cons.mp member with rfl | deeper
    · exact nested
    · rcases List.mem_append.mp deeper with within | after
      · exact ihInside (Unfolder.enterAgrees agrees r) nested read within
      · exact ihLater (leaveAgrees inside agrees) bounded read after
  | collection inside later ihInside ihLater | tuple inside later ihInside ihLater
  | union inside later ihInside ihLater =>
    intro read member
    rcases List.mem_append.mp member with within | after
    · exact ihInside agrees bounded read within
    · exact ihLater (runKeepsAgreement inside agrees) bounded read after

theorem runGround (run : Run t path types s answers s' reads) : ∀ u ∈ answers, u.isGround = true := by
  induction run with
  | done => simp
  | plain leaf later ih =>
    intro u member
    rcases List.mem_cons.mp member with rfl | tail
    · rcases leaf with rfl | rfl | ⟨c, rfl⟩ <;> rfl
    · exact ih u tail
  | cut spent later ih =>
    intro u member
    rcases List.mem_cons.mp member with rfl | tail
    · rfl
    · exact ih u tail
  | opened room inside later ihInside ihLater =>
    intro v member
    rcases List.mem_cons.mp member with rfl | tail
    · exact ihInside v (by simp)
    · exact ihLater v tail
  | @collection path c element rest s u inner us s' within after inside later ihInside ihLater =>
    intro v member
    rcases List.mem_cons.mp member with rfl | tail
    · exact ihInside u (by simp)
    · exact ihLater v tail
  | tuple inside later ihInside ihLater =>
    intro v member
    rcases List.mem_cons.mp member with rfl | tail
    · exact Ty.allGroundIff.mpr ihInside
    · exact ihLater v tail
  | union inside later ihInside ihLater =>
    intro v member
    rcases List.mem_cons.mp member with rfl | tail
    · exact Ty.groundUnionOf ihInside
    · exact ihLater v tail

theorem resolveGround (t : ReferenceTable) (r : RefId) : (t.resolve r).isGround = true := by
  obtain ⟨final, reads, run⟩ := t.resolveRuns r
  exact runGround run _ (by simp)

theorem runUnique (run : Run t path types s answers s' reads) {answers' : List Ty} {s'' : Unfolder}
    {reads' : List (List RefId)} (other : Run t path types s answers' s'' reads') :
    answers' = answers ∧ s'' = s' ∧ reads' = reads := by
  induction run generalizing answers' s'' reads' with
  | done =>
    cases other
    exact ⟨rfl, rfl, rfl⟩
  | plain leaf later ih =>
    cases other with
    | plain _ later' =>
      obtain ⟨rfl, rfl, rfl⟩ := ih later'
      exact ⟨rfl, rfl, rfl⟩
    | _ => simp at leaf
  | cut spent later ih =>
    cases other with
    | plain leaf => simp at leaf
    | cut _ later' =>
      obtain ⟨rfl, rfl, rfl⟩ := ih later'
      exact ⟨rfl, rfl, rfl⟩
    | opened room => exact absurd spent room
  | opened room inside later ihInside ihLater =>
    cases other with
    | plain leaf => simp at leaf
    | cut spent => exact absurd spent room
    | opened _ inside' later' =>
      obtain ⟨sameAnswer, rfl, rfl⟩ := ihInside inside'
      cases sameAnswer
      obtain ⟨rfl, rfl, rfl⟩ := ihLater later'
      exact ⟨rfl, rfl, rfl⟩
  | collection inside later ihInside ihLater =>
    cases other with
    | plain leaf => simp at leaf
    | collection inside' later' =>
      obtain ⟨sameAnswer, rfl, rfl⟩ := ihInside inside'
      cases sameAnswer
      obtain ⟨rfl, rfl, rfl⟩ := ihLater later'
      exact ⟨rfl, rfl, rfl⟩
  | tuple inside later ihInside ihLater =>
    cases other with
    | plain leaf => simp at leaf
    | tuple inside' later' =>
      obtain ⟨rfl, rfl, rfl⟩ := ihInside inside'
      obtain ⟨rfl, rfl, rfl⟩ := ihLater later'
      exact ⟨rfl, rfl, rfl⟩
  | union inside later ihInside ihLater =>
    cases other with
    | plain leaf => simp at leaf
    | union inside' later' =>
      obtain ⟨rfl, rfl, rfl⟩ := ihInside inside'
      obtain ⟨rfl, rfl, rfl⟩ := ihLater later'
      exact ⟨rfl, rfl, rfl⟩

/- Resolving has a run, the only one there is; it keeps within both limits and ends, all counts put back,
in a type without references. -/
theorem resolveSettles (t : ReferenceTable) (r : RefId) :
    (∃ final reads, Run t [] [.reference r] .start [t.resolve r] final reads) ∧
      ∀ answers final reads, Run t [] [.reference r] .start answers final reads →
        answers = [t.resolve r] ∧ reads.length ≤ 64 ∧ (∀ opened ∈ reads, ∀ q, opened.count q ≤ 3) ∧
          (∀ q, final.depth q = 0) ∧ (t.resolve r).references = [] := by
  obtain ⟨final, reads, run⟩ := t.resolveRuns r
  refine ⟨⟨final, reads, run⟩, ?_⟩
  intro answers final' reads' other
  obtain ⟨rfl, -, -⟩ := runUnique run other
  have spent := runSpends other
  refine ⟨rfl, ?_, ?_, ?_, ?_⟩
  · simp only [Unfolder.start, Unfolder.expansionLimit] at spent
    omega
  · exact runNesting other Unfolder.startAgrees (by simp)
  · exact runRestores other
  · exact (Ty.groundReferences _).mp (t.resolveGround r)

end ReferenceTable
end GradualTypes
