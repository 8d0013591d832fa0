import GradualTypes.Proofs.ConsistentOrder

/-! Common ancestors. The order of one class is searched for the first class that the other derives from as
well. The order holds all that its class derives from, so that the search finds something exactly if the two
classes have an ancestor in common. Where the order is a linearization, no class in it derives from an earlier
one, and what is found first is nearest. -/
namespace GradualTypes.InheritanceGraph

variable {g : InheritanceGraph} {a b x y : ClassId} {order : List ClassId}

/- Of two hits a search does not give the later one. -/
theorem findEarlier {α : Type} {p : α → Bool} {l : List α} {x y : α} (distinct : l.Nodup)
    (found : l.find? p = some x) (hit : p y = true) : ¬ [y, x].Sublist l := by
  induction l with
  | nil => simp at found
  | cons first rest ih =>
    obtain ⟨fresh, distinct⟩ := List.nodup_cons.mp distinct
    intro earlier
    have behind : x ∈ rest := earlier.tail.subset List.mem_cons_self
    by_cases here : p first = true
    · rw [List.find?_cons_of_pos here, Option.some.injEq] at found
      exact fresh (found ▸ behind)
    · rw [List.find?_cons_of_neg here] at found
      rcases List.sublist_cons_iff.mp earlier with later | ⟨tail, same, -⟩
      · exact ih distinct found later
      · cases same
        exact here hit

/- In a linearization a class stands before all that it derives from. -/
theorem linearizeDescends (linear : g.linearize a = some order) (way : g.Path a y)
    (above : Relation.TransGen g.HasBase y x) : [y, x].Sublist order := by
  obtain ⟨upper, found, held⟩ := linearizeAbove linear way
  obtain ⟨l, rfl, ordered, -, -⟩ := linearizeOrdered found
  have behind : [x].Sublist l := List.singleton_sublist.mpr ((ordered.ancestors x).mpr above)
  exact (behind.cons_cons y).trans held

/- Both classes derive from the third, be it one of them. -/
def Common (g : InheritanceGraph) (a b x : ClassId) : Prop := g.Path a x ∧ g.Path b x

theorem commonFound (found : g.commonAncestor? a b = some x) : g.Common a b x :=
  ⟨memResolutionOrder.mp (List.mem_of_find?_eq_some found), derivedIff.mp (List.find?_some found)⟩

theorem commonIff : (∃ x, g.commonAncestor? a b = some x) ↔ ∃ x, g.Common a b x := by
  constructor
  · rintro ⟨x, found⟩
    exact ⟨x, commonFound found⟩
  · rintro ⟨x, up, up'⟩
    exact Option.isSome_iff_exists.mp
      (List.find?_isSome.mpr ⟨x, memResolutionOrder.mpr up, derivedIff.mpr up'⟩)

theorem commonNearest (linear : g.linearize a = some order) (found : g.commonAncestor? a b = some x)
    (common : g.Common a b y) (way : g.Path y x) : y = x := by
  by_contra other
  have proper : Relation.TransGen g.HasBase y x :=
    (Relation.reflTransGen_iff_eq_or_transGen.mp way).resolve_left fun same => other same.symm
  have same : g.resolutionOrder a = order := by rw [resolutionOrder, linear, Option.getD_some]
  rw [commonAncestor?, same] at found
  exact findEarlier (linearizeDistinct linear).2.1 found (derivedIff.mpr common.2)
    (linearizeDescends linear common.1 proper)

/-- A common ancestor is found exactly if there is one at all, whichever of the two classes comes first. What
is found is one, and if the first class has a linearization no other common ancestor derives from it. -/
theorem nearestAncestor (g : InheritanceGraph) (a b : ClassId) :
    ((∃ x, g.commonAncestor? a b = some x) ↔ ∃ x, g.Common a b x) ∧
    ((∃ x, g.commonAncestor? a b = some x) ↔ ∃ x, g.commonAncestor? b a = some x) ∧
    ∀ x, g.commonAncestor? a b = some x → g.Common a b x ∧
      ((∃ order, g.linearize a = some order) → ∀ y, g.Common a b y → g.Path y x → y = x) := by
  have either : (∃ x, g.Common a b x) ↔ ∃ x, g.Common b a x := exists_congr fun x => and_comm
  refine ⟨commonIff, commonIff.trans (either.trans commonIff.symm), fun x found => ?_⟩
  refine ⟨commonFound found, fun ⟨order, linear⟩ y common way => ?_⟩
  exact commonNearest linear found common way

/- Class 4 derives from 1 by way of 2 and of 3, class 5 by way of 3. -/
def diamond : InheritanceGraph :=
  (((empty.inherit 2 [1]).inherit 3 [1]).inherit 4 [2, 3]).inherit 5 [3]

theorem diamondNearest : (∃ order, diamond.linearize 4 = some order) ∧ diamond.commonAncestor? 4 5 = some 3 ∧
    diamond.Common 4 5 3 ∧ ∀ y, diamond.Common 4 5 y → diamond.Path y 3 → y = 3 := by
  have linear : diamond.linearize 4 = some [4, 2, 3, 1] := by decide +kernel
  have found : diamond.commonAncestor? 4 5 = some 3 := by decide +kernel
  obtain ⟨common, nearest⟩ := (nearestAncestor diamond 4 5).2.2 3 found
  exact ⟨⟨_, linear⟩, found, common, nearest ⟨_, linear⟩⟩

/- Class 3 names 1 before 2, which derives from 1. It has no linearization, and 1 is found before 2. -/
example : ((empty.inherit 2 [1]).inherit 3 [1, 2]).linearize 3 = none ∧
    ((empty.inherit 2 [1]).inherit 3 [1, 2]).commonAncestor? 3 2 = some 1 := by decide +kernel

end GradualTypes.InheritanceGraph
