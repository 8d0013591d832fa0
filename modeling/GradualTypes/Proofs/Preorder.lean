import GradualTypes.InheritanceGraph

/-! The depth first order as a recursion. A traversal visits a class and then its bases from left to right, each
with all that lies above it before the next, and leaves out what was visited before. The walk keeps a stack
instead, on which classes may wait that are visited elsewhere in the meantime. Both visit the same classes in
the same order. -/
namespace GradualTypes.InheritanceGraph

theorem reserveVisited (g : InheritanceGraph) (seen visited : List ClassId) :
    g.reserve (visited ++ seen) ≤ g.reserve seen := by
  induction visited with
  | nil => exact Nat.le_refl _
  | cons c visited ih => exact Nat.le_trans (g.reserveMono (visited ++ seen) c) ih

mutual
/- The classes that are new on a visit to `c`, in the order in which they are met. -/
def traverse (g : InheritanceGraph) (seen : List ClassId) (c : ClassId) : List ClassId :=
  if c ∈ seen then [] else c :: g.traverseAll (c :: seen) (g.bases c)
termination_by 2 * g.reserve seen + 1
decreasing_by
  have := g.reserveVisit (by assumption : c ∉ seen)
  omega

def traverseAll (g : InheritanceGraph) (seen : List ClassId) : List ClassId → List ClassId
  | [] => []
  | b :: rest => g.traverse seen b ++ g.traverseAll ((g.traverse seen b).reverse ++ seen) rest
termination_by bs => 2 * g.reserve seen + 2 * bs.length
decreasing_by
  · simp only [List.length_cons]
    omega
  · refine Nat.lt_of_le_of_lt (Nat.add_le_add_right (Nat.mul_le_mul_left 2 (g.reserveVisited seen _)) _) ?_
    simp only [List.length_cons]
    omega
end

def preorder (g : InheritanceGraph) (c : ClassId) : List ClassId := g.traverse [] c

/- What is on top of the stack is visited as by a call, and the walk goes on below it with what was visited. -/
theorem walkTraverses (g : InheritanceGraph) :
    (∀ seen c stack, g.depthFirst seen (c :: stack) =
      g.traverse seen c ++ g.depthFirst ((g.traverse seen c).reverse ++ seen) stack) ∧
    ∀ seen bs stack, g.depthFirst seen (bs ++ stack) =
      g.traverseAll seen bs ++ g.depthFirst ((g.traverseAll seen bs).reverse ++ seen) stack := by
  refine traverse.mutual_induct g _ _ ?known ?fresh ?none ?next
  case known =>
    intro seen c known stack
    rw [depthFirst, traverse, if_pos known, if_pos known]
    rfl
  case fresh =>
    intro seen c fresh above stack
    rw [depthFirst, traverse, if_neg fresh, if_neg fresh, above]
    simp
  case none =>
    intro seen stack
    simp [traverseAll]
  case next =>
    intro seen b rest first others stack
    rw [List.cons_append, first, others, traverseAll]
    simp

/-- The walk over a stack gives the preorder of the recursive traversal, whatever the graph. -/
theorem depthFirstPreorder (g : InheritanceGraph) (c : ClassId) : g.depthFirstOrder c = g.preorder c := by
  rw [depthFirstOrder, (walkTraverses g).1, depthFirst, List.append_nil, preorder]

/- Class 2 waits on the stack for class 3 when it is visited for class 1, which leads back to 3 too. -/
example : (⟨[(3, [1, 2]), (1, [2, 3])]⟩ : InheritanceGraph).preorder 3 = [3, 1, 2] := by decide +kernel

end GradualTypes.InheritanceGraph
