import GradualTypes.Proofs.ResolutionOrder
import GradualTypes.ProtocolRegistry

/-! When a class satisfies a protocol. Members are collected along the resolution order, so that which of
them a class has is a question of paths alone, and what a class satisfies is satisfied by all that derive
from it. -/
namespace GradualTypes.ProtocolRegistry

variable {p : ProtocolRegistry} {classes : ClassTable} {graph : InheritanceGraph} {b c d : ClassId} {name : String}

theorem requirementsRegister (p : ProtocolRegistry) (name other : String) (requirements : List Requirement) :
    (p.register name requirements).requirements? other =
      if other = name then some requirements else p.requirements? other :=
  lookupReplaced p.entries name other requirements

/- The class, or one that a path of bases leads to, declares the member. -/
def HasMember (classes : ClassTable) (graph : InheritanceGraph) (c : ClassId) (member : String) : Prop :=
  ∃ a d, graph.Path c a ∧ classes.decl? a = some d ∧ member ∈ d.members

theorem memAvailable {member : String} :
    member ∈ availableMembers classes graph c ↔ HasMember classes graph c member := by
  rw [availableMembers, List.mem_flatMap]
  refine exists_congr fun a => ?_
  rw [InheritanceGraph.memResolutionOrder]
  cases classes.decl? a <;> simp

theorem satisfiesIff : p.satisfies classes graph c name = true ↔
    ∃ requirements, p.requirements? name = some requirements ∧
      ∀ r ∈ requirements, ∃ member ∈ r, HasMember classes graph c member := by
  rw [satisfies]
  cases p.requirements? name with
  | none => simp
  | some requirements => simp [met, memAvailable]

theorem satisfiesInherited (path : graph.Path d b) (base : p.satisfies classes graph b name = true) :
    p.satisfies classes graph d name = true := by
  obtain ⟨requirements, registered, each⟩ := satisfiesIff.mp base
  refine satisfiesIff.mpr ⟨requirements, registered, fun r member => ?_⟩
  obtain ⟨m, listed, a, decl, way, declared⟩ := each r member
  exact ⟨m, listed, a, decl, path.trans way, declared⟩

theorem structuralInherited (path : graph.Path d b) (base : p.isStructuralSubclass classes graph b c = true) :
    p.isStructuralSubclass classes graph d c = true := by
  unfold isStructuralSubclass at base ⊢
  split at base
  · cases base
  · exact satisfiesInherited path base

theorem memberMono {graph' : InheritanceGraph} (more : ∀ a b, graph.HasBase a b → graph'.HasBase a b)
    {member : String} (has : HasMember classes graph c member) : HasMember classes graph' c member := by
  obtain ⟨a, decl, way, declared⟩ := has
  exact ⟨a, decl, InheritanceGraph.pathMono more way, declared⟩

/- Which classes are bases counts, and not in which order they were recorded. -/
theorem satisfiesReordered {graph' : InheritanceGraph} (same : ∀ a b, b ∈ graph'.bases a ↔ b ∈ graph.bases a) :
    p.satisfies classes graph' c name = p.satisfies classes graph c name := by
  have members : ∀ member, HasMember classes graph' c member ↔ HasMember classes graph c member := fun _ =>
    ⟨memberMono fun a b => (same a b).mp, memberMono fun a b => (same a b).mpr⟩
  rw [Bool.eq_iff_iff, satisfiesIff, satisfiesIff]
  simp only [members]

/-- A class satisfies a protocol exactly if the protocol is registered and each of its requirements names a
member that the class, or one reached from it through recorded bases, declares; the order of bases does not
matter, and derived classes satisfy it too. -/
theorem satisfiesByReach (p : ProtocolRegistry) (classes : ClassTable) (graph : InheritanceGraph) (c : ClassId)
    (name : String) :
    (p.satisfies classes graph c name = true ↔
      ∃ requirements, p.requirements? name = some requirements ∧ ∀ r ∈ requirements, ∃ member ∈ r,
        ∃ a d, graph.Path c a ∧ classes.decl? a = some d ∧ member ∈ d.members) ∧
      (∀ graph' : InheritanceGraph, (∀ a b, b ∈ graph'.bases a ↔ b ∈ graph.bases a) →
        p.satisfies classes graph' c name = p.satisfies classes graph c name) ∧
      (p.satisfies classes graph c name = true →
        ∀ d, graph.isDerivedFrom d c = true → p.satisfies classes graph d name = true) := by
  refine ⟨satisfiesIff, fun graph' same => satisfiesReordered same, fun base d derived => ?_⟩
  exact satisfiesInherited (InheritanceGraph.derivedIff.mp derived) base

/- Classes 1 and 2 are bases of each other and of class 3, in the order 1, 2 there; class 9 is not declared. -/
def ringClasses : ClassTable :=
  ⟨[⟨some "Left", none, ["__iter__"]⟩, ⟨some "Right", none, ["next"]⟩, ⟨some "Both", none, []⟩]⟩

def ring : InheritanceGraph := ⟨[(1, [2]), (2, [1, 9]), (3, [1, 2])]⟩

def ringTurned : InheritanceGraph := ⟨[(1, [2]), (2, [9, 1]), (3, [2, 1])]⟩

/- On the ring there is no linearization, and each class has what any of them declares. -/
theorem ringIterates :
    ring.linearize 3 = none ∧ (∀ a b, b ∈ ringTurned.bases a ↔ b ∈ ring.bases a) ∧
      ProtocolRegistry.standard.satisfies ringClasses ringTurned 2 "Iterator" = true ∧
      ring.isDerivedFrom 3 2 = true ∧ ProtocolRegistry.standard.satisfies ringClasses ring 3 "Iterator" = true := by
  have order : ring.linearize 3 = none := by decide +kernel
  have base : ProtocolRegistry.standard.satisfies ringClasses ring 2 "Iterator" = true := by decide +kernel
  have derived : ring.isDerivedFrom 3 2 = true := by decide +kernel
  have same : ∀ a b, b ∈ ringTurned.bases a ↔ b ∈ ring.bases a := by
    intro a b
    simp only [InheritanceGraph.bases, ring, ringTurned, List.lookup_cons, List.lookup_nil]
    split
    · rfl
    split
    · simp [or_comm]
    split
    · simp [or_comm]
    · rfl
  obtain ⟨-, reordered, inherited⟩ := satisfiesByReach .standard ringClasses ring 2 "Iterator"
  exact ⟨order, same, (reordered ringTurned same).trans base, derived, inherited base 3 derived⟩

end GradualTypes.ProtocolRegistry
