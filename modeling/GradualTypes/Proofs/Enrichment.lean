import GradualTypes.Proofs.NominalQueries

/-! Contexts that know more. A further base may change the resolution order of a class, or leave the class
without a consistent one, but no class that was reached is lost; a further protocol takes no other away. So a
match that holds goes on to hold, rule by rule. -/
namespace GradualTypes

namespace ProtocolRegistry

variable {p p' : ProtocolRegistry} {classes : ClassTable} {graph graph' : InheritanceGraph} {c : ClassId}
  {name : String}

end ProtocolRegistry

namespace Context

variable {x y : Context}

/- The empty graph and the empty registry are collaborators that know nothing: a class derives from itself
only and is alone in its order, and it satisfies no protocol. -/
theorem emptyPath {c a : ClassId} : InheritanceGraph.empty.Path c a ↔ c = a := by
  constructor
  · intro way
    rcases Relation.ReflTransGen.cases_head way with same | ⟨b, base, -⟩
    · exact same
    · cases base
  · rintro rfl
    exact .refl

theorem emptyOrder (c : ClassId) : InheritanceGraph.empty.resolutionOrder c = [c] := by
  have head := InheritanceGraph.empty.resolutionOrderHead c
  have distinct := InheritanceGraph.empty.resolutionOrderDistinct c
  have only : ∀ a ∈ InheritanceGraph.empty.resolutionOrder c, c = a :=
    fun a member => emptyPath.mp (InheritanceGraph.memResolutionOrder.mp member)
  obtain ⟨rest, order⟩ := List.head?_eq_some_iff.mp head
  rw [order] at distinct only
  have alone : rest = [] := by
    refine List.eq_nil_iff_forall_not_mem.mpr fun a later => ?_
    obtain rfl := only a (List.mem_cons_of_mem c later)
    exact (List.nodup_cons.mp distinct).1 later
  rw [order, alone]

theorem emptySatisfied (classes : ClassTable) (graph : InheritanceGraph) (sub sup : ClassId) :
    ProtocolRegistry.empty.isStructuralSubclass classes graph sub sup = false := by
  unfold ProtocolRegistry.isStructuralSubclass
  split <;> rfl

def sized : ProtocolRegistry := ⟨[("Sized", [["__len__"]])]⟩

end Context
end GradualTypes
