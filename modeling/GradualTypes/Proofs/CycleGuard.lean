import GradualTypes.Proofs.Ancestry

/-! Graphs grown under the guard. The guard is asked for each base that is to be recorded, on the graph as it
was before. What is recorded for a class does not change the answers for that class, so that several bases
may be recorded at once, and a graph that began empty has no cycle at any time. -/
namespace GradualTypes.InheritanceGraph

variable {g : InheritanceGraph} {child parent p : ClassId} {parents rest : List ClassId}

theorem addNewNext (known rest : List ClassId) : addNew known (p :: rest) = addNew (addNew known [p]) rest := by
  simp only [addNew]
  split <;> rfl

theorem inheritNext : g.inherit child (p :: rest) = (g.inherit child [p]).inherit child rest := by
  have own : (g.inherit child [p]).bases child = addNew (g.bases child) [p] := by
    rw [basesInherit, if_pos rfl]
  rw [inherit, inherit, own, addNewNext]
  simp [inherit]

theorem inheritNothing : (g.inherit child []).HasBase = g.HasBase := by
  funext c b
  rw [HasBase, HasBase, basesInherit]
  split
  · rename_i same
    rw [same, addNew]
  · rfl

/- The way back to a class need not go through the bases of that class. -/
theorem guardKept : (g.inherit child [parent]).wouldCycle child p = g.wouldCycle child p := by
  rw [Bool.eq_iff_iff, wouldCycle, wouldCycle, derivedIff, derivedIff]
  constructor
  · intro back
    rcases Relation.reflTransGen_iff_eq_or_transGen.mp back with same | walk
    · rw [same]
      exact .refl
    · exact (walkInherit walk).elim (fun old => old.to_reflTransGen) (fun ways => ways.1)
  · exact pathMono fun _ _ base => hasBaseInherit.mpr (.inl base)

theorem inheritAllAcyclic (acyclic : g.Acyclic) (safe : ∀ p ∈ parents, g.wouldCycle child p = false) :
    (g.inherit child parents).Acyclic := by
  induction parents generalizing g with
  | nil =>
    rw [Acyclic, inheritNothing]
    exact acyclic
  | cons p rest ih =>
    obtain ⟨first, others⟩ := List.forall_mem_cons.mp safe
    rw [inheritNext]
    refine ih (inheritAcyclic acyclic first) fun q member => ?_
    rw [guardKept]
    exact others q member

/- Bases are recorded only where the guard lets all of them pass. -/
inductive Grown : InheritanceGraph → Prop
  | empty : Grown .empty
  | add {g : InheritanceGraph} {child : ClassId} {parents : List ClassId} (grown : Grown g)
      (safe : ∀ p ∈ parents, g.wouldCycle child p = false) : Grown (g.inherit child parents)

theorem emptyAcyclic : empty.Acyclic := by
  intro c loop
  obtain ⟨b, base, -⟩ := Relation.TransGen.head'_iff.mp loop
  simp [HasBase, bases, empty] at base

theorem grownAcyclic (grown : g.Grown) : g.Acyclic := by
  induction grown with
  | empty => exact emptyAcyclic
  | add grown safe ih => exact inheritAllAcyclic ih safe

/-- On a graph without a cycle the guard refuses a base exactly if recording it closes one. Hence there is none
in any graph that was built under the guard. -/
theorem guardedGrowth :
    (∀ (g : InheritanceGraph) (child parent : ClassId), g.Acyclic →
      (g.wouldCycle child parent = true ↔ ∃ c, Relation.TransGen (g.inherit child [parent]).HasBase c c)) ∧
    ∀ g : InheritanceGraph, g.Grown → g.Acyclic := by
  refine ⟨fun g child parent acyclic => ?_, fun g grown => grownAcyclic grown⟩
  rw [guardExact acyclic, Acyclic]
  simp only [not_forall, not_not]

/- Class 3 derives from 2, and 2 from 1. -/
def chain : InheritanceGraph := (empty.inherit 2 [1]).inherit 3 [2]

theorem chainGrown : chain.Grown ∧ chain.Acyclic ∧
    chain.wouldCycle 1 3 = true ∧ (∃ c, Relation.TransGen (chain.inherit 1 [3]).HasBase c c) ∧
    chain.wouldCycle 3 1 = false ∧ ¬ ∃ c, Relation.TransGen (chain.inherit 3 [1]).HasBase c c := by
  have grown : chain.Grown := .add (.add .empty (by decide +kernel)) (by decide +kernel)
  have acyclic : chain.Acyclic := guardedGrowth.2 chain grown
  have refused : chain.wouldCycle 1 3 = true := by decide +kernel
  have passed : chain.wouldCycle 3 1 = false := by decide +kernel
  refine ⟨grown, acyclic, refused, (guardedGrowth.1 chain 1 3 acyclic).mp refused, passed, fun cyclic => ?_⟩
  have closed := (guardedGrowth.1 chain 3 1 acyclic).mpr cyclic
  rw [passed] at closed
  contradiction

end GradualTypes.InheritanceGraph
