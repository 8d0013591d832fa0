import GradualTypes.Proofs.Parallel
import GradualTypes.Proofs.Unrolling

/-! Expansions that are cut off. The unfolder stops at its limits wherever they are met, often in the middle
of a row of types, and leaves unknown what a longer expansion would have shown. On a run this makes every
answer wider and looser than the type with all its references unrolled further, so that a match with that
type is a match with what is resolved. -/
namespace GradualTypes.Context

variable {x : Context}

/- Where a run opens a reference, the unrolling opens it too, as it allows more of them inside each other.
Where the run stops, for whichever limit, anything is less vague than its answer. -/
theorem runVaguer (settled : x.resolver.Settled) (plain : x.classes.NoTupleNames) {t : ReferenceTable}
    {path : List RefId} {types answers : List Ty} {s s' : Unfolder} {reads : List (List RefId)} {depth : Nat}
    (deep : Unfolder.nestingLimit ≤ depth) (run : t.Run path types s answers s' reads)
    (agrees : s.Agrees path) :
    List.Forall₂ x.Vaguer (types.map (Ty.substitute (t.unroll depth path))) answers := by
  induction run with
  | done => exact .nil
  | plain leaf later ih =>
    refine .cons ?_ (ih agrees)
    rcases leaf with rfl | rfl | ⟨c, rfl⟩ <;> exact x.vaguerRefl _
  | cut spent later ih => exact .cons (vaguerUnknown settled _) (ih agrees)
  | @opened path r rest s u inner us s' within after room inside later ihInside ihLater =>
    have shallow : path.count r < depth := by
      rw [← agrees r]
      exact Nat.lt_of_lt_of_le (Unfolder.roomLeft room).1 deep
    refine .cons ?_ (ihLater (ReferenceTable.leaveAgrees inside agrees))
    rw [Ty.substitute, ReferenceTable.unrollOpen shallow]
    exact (List.forall₂_cons.mp (ihInside (Unfolder.enterAgrees agrees r))).1
  | collection inside later ihInside ihLater =>
    refine .cons ?_ (ihLater (ReferenceTable.runKeepsAgreement inside agrees))
    exact vaguerCollection settled _ (List.forall₂_cons.mp (ihInside agrees)).1
  | tuple inside later ihInside ihLater =>
    refine .cons ?_ (ihLater (ReferenceTable.runKeepsAgreement inside agrees))
    rw [Ty.substitute, Ty.substituteAllMap]
    exact vaguerTuple settled plain _ (ihInside agrees)
  | union inside later ihInside ihLater =>
    refine .cons ?_ (ihLater (ReferenceTable.runKeepsAgreement inside agrees))
    rw [Ty.substitute, Ty.substituteAllMap]
    exact vaguerUnion settled (ihInside agrees)

/-- Whatever matches a reference unrolled at least as deep as the unfolder goes, and without a budget,
matches the reference. -/
theorem unrolledMatch (x : Context) {t : ReferenceTable} (resolver : x.resolver = .ofTable t)
    (plain : x.classes.NoTupleNames) (r : RefId) {depth : Nat} (deep : 3 ≤ depth) :
    (∀ actual, x.isMatch (t.unroll depth [] r) actual = true → x.isMatch (.reference r) actual = true) ∧
      ∀ expected, x.isMatch expected (t.unroll depth [] r) = true →
        x.isMatch expected (.reference r) = true := by
  have settled := Resolver.settledOf (.inr ⟨t, resolver⟩)
  have answer : x.resolver.answer r = t.resolve r := by rw [resolver, Resolver.ofTable]
  obtain ⟨final, reads, run⟩ := t.resolveRuns r
  have vaguer := (List.forall₂_cons.mp (runVaguer settled plain deep run Unfolder.startAgrees)).1
  rw [Ty.substitute] at vaguer
  constructor
  · intro actual matched
    rw [matchReferenceLeft settled, answer]
    exact vaguer.wider actual matched
  · intro expected matched
    rw [matchReferenceRight settled, answer]
    exact vaguer.looser.accepted expected matched

/- Rows cost 73 openings, so that the budget ends in the middle of a row. -/
theorem rowsMatch :
    64 < forestTable.openings 3 [] 2 ∧
      forest.isMatch (.reference 1) (listOf (listOf (listOf (.nominal (some 1))))) = true ∧
      forest.isMatch (.reference 2) (forestTable.unroll 5 [] 2) = true ∧
      forest.isMatch (forestTable.unroll 3 [] 2) (.reference 2) = true := by
  have settled : forest.resolver.Settled := Resolver.ofTableSettled forestTable
  have trees := @unrolledMatch forest forestTable rfl (by decide) 1 4 (by decide)
  have rows := fun depth => @unrolledMatch forest forestTable rfl (by decide) 2 depth
  refine ⟨by decide +kernel, trees.1 _ (by decide +kernel), (rows 5 (by decide)).1 _ (matchSelf settled _),
    (rows 3 (by decide)).2 _ (matchSelf settled _)⟩

end GradualTypes.Context
