import GradualTypes.InheritanceGraph
import GradualTypes.Proofs.Associations
import Mathlib.Logic.Relation

/-! Ancestry. A class derives from another when a path of recorded bases leads there, and the search over
the graph decides just that, on cyclic graphs too. A base that passes the guard closes no cycle, so that a
graph grown under the guard orders its classes. -/
namespace GradualTypes.InheritanceGraph

variable {g : InheritanceGraph} {a b c d child parent : ClassId}

def HasBase (g : InheritanceGraph) (c b : ClassId) : Prop := b ∈ g.bases c

/- A path of recorded bases, possibly empty. -/
def Path (g : InheritanceGraph) : ClassId → ClassId → Prop := Relation.ReflTransGen g.HasBase

def Acyclic (g : InheritanceGraph) : Prop := ∀ c, ¬ Relation.TransGen g.HasBase c c

theorem searchSound {seen stack : List ClassId} (found : g.search a seen stack = true) :
    ∃ c ∈ stack, Relation.TransGen g.HasBase c a := by
  induction seen, stack using search.induct g a with
  | case1 => simp [search] at found
  | case2 seen c stack known ih =>
    rw [search, if_pos known] at found
    obtain ⟨d, member, path⟩ := ih found
    exact ⟨d, List.mem_cons_of_mem c member, path⟩
  | case3 seen c stack fresh base => exact ⟨c, List.mem_cons_self, .single base⟩
  | case4 seen c stack fresh proper ih =>
    rw [search, if_neg fresh, if_neg proper] at found
    obtain ⟨d, member, path⟩ := ih found
    rcases List.mem_append.mp member with base | later
    · exact ⟨c, List.mem_cons_self, .head base path⟩
    · exact ⟨d, List.mem_cons_of_mem c later, path⟩

/- The bases of a class that was seen were seen themselves or are still on the stack. Every walk over the
graph keeps it so, whether it skips the class on top of the stack or visits it. -/
def Covered (g : InheritanceGraph) (seen stack : List ClassId) : Prop :=
  ∀ s ∈ seen, ∀ b ∈ g.bases s, b ∈ seen ∨ b ∈ stack

theorem Covered.skip {seen stack : List ClassId} (covered : g.Covered seen (c :: stack)) (known : c ∈ seen) :
    g.Covered seen stack := by
  intro s member b base
  rcases covered s member b base with old | waiting
  · exact .inl old
  · rcases List.mem_cons.mp waiting with rfl | later
    · exact .inl known
    · exact .inr later

theorem Covered.visit {seen stack : List ClassId} (covered : g.Covered seen (c :: stack)) :
    g.Covered (c :: seen) (g.bases c ++ stack) := by
  intro s member b base
  rcases List.mem_cons.mp member with rfl | old
  · exact .inr (List.mem_append_left stack base)
  · rcases covered s old b base with before | waiting
    · exact .inl (List.mem_cons_of_mem c before)
    · rcases List.mem_cons.mp waiting with rfl | later
      · exact .inl List.mem_cons_self
      · exact .inr (List.mem_append_right _ later)

/- A search that finds nothing has gone through a set of classes that no base leads out of. -/
theorem searchExhausts {seen stack : List ClassId} (missed : g.search a seen stack = false)
    (proper : ∀ s ∈ seen, a ∉ g.bases s) (covered : g.Covered seen stack) :
    ∃ done : ClassId → Prop, (∀ c, c ∈ seen ∨ c ∈ stack → done c) ∧
      ∀ c, done c → a ∉ g.bases c ∧ ∀ b ∈ g.bases c, done b := by
  induction seen, stack using search.induct g a with
  | case1 seen =>
    exact ⟨(· ∈ seen), by simp, fun c member => ⟨proper c member, by simpa using covered c member⟩⟩
  | case2 seen c stack known ih =>
    rw [search, if_pos known] at missed
    obtain ⟨done, holds, closed⟩ := ih missed proper (covered.skip known)
    refine ⟨done, fun d member => ?_, closed⟩
    rcases member with old | waiting
    · exact holds d (.inl old)
    · rcases List.mem_cons.mp waiting with rfl | later
      · exact holds d (.inl known)
      · exact holds d (.inr later)
  | case3 seen c stack fresh base =>
    rw [search, if_neg fresh, if_pos base] at missed
    simp at missed
  | case4 seen c stack fresh other ih =>
    rw [search, if_neg fresh, if_neg other] at missed
    obtain ⟨done, holds, closed⟩ := ih missed (List.forall_mem_cons.mpr ⟨other, proper⟩) covered.visit
    refine ⟨done, fun d member => ?_, closed⟩
    rcases member with old | waiting
    · exact holds d (.inl (List.mem_cons_of_mem c old))
    · rcases List.mem_cons.mp waiting with rfl | later
      · exact holds d (.inl List.mem_cons_self)
      · exact holds d (.inr (List.mem_append_right _ later))

theorem searchComplete (path : Relation.TransGen g.HasBase c a) : g.search a [] [c] = true := by
  by_contra missed
  obtain ⟨done, holds, closed⟩ := searchExhausts (by simpa using missed) (by simp) (by simp [Covered])
  have reached : ∀ d, g.Path c d → done d := by
    intro d way
    induction way with
    | refl => exact holds c (.inr List.mem_cons_self)
    | tail _ base ih => exact (closed _ ih).2 _ base
  obtain ⟨last, way, base⟩ := Relation.TransGen.tail'_iff.mp path
  exact (closed last (reached last way)).1 base

theorem searchIff : g.search a [] [c] = true ↔ Relation.TransGen g.HasBase c a := by
  refine ⟨fun found => ?_, searchComplete⟩
  obtain ⟨d, member, path⟩ := searchSound found
  rwa [List.mem_singleton.mp member] at path

/-- Derivation is what the search decides: a path of recorded bases from one class to the other. -/
theorem derivedIff : g.isDerivedFrom c a = true ↔ g.Path c a := by
  rw [isDerivedFrom, Bool.or_eq_true, beq_iff_eq, searchIff, Path, Relation.reflTransGen_iff_eq_or_transGen]
  exact or_congr_left eq_comm

theorem pathMono {g' : InheritanceGraph} (more : ∀ c b, g.HasBase c b → g'.HasBase c b) (path : g.Path c a) :
    g'.Path c a := Relation.ReflTransGen.mono more _ _ path

theorem Acyclic.antisymm (acyclic : g.Acyclic) (there : g.Path c d) (back : g.Path d c) : c = d := by
  rcases Relation.reflTransGen_iff_eq_or_transGen.mp there with same | way
  · exact same.symm
  · exact absurd (way.trans_left back) (acyclic c)

theorem memAddNew {known parents : List ClassId} :
    c ∈ addNew known parents ↔ c ∈ known ∨ c ∈ parents := by
  induction parents generalizing known with
  | nil => simp [addNew]
  | cons p rest ih =>
    by_cases old : p ∈ known
    · simp only [addNew, old, if_true, ih, List.mem_cons]
      grind
    · simp [addNew, old, ih, or_assoc]

theorem nodupAddNew {known parents : List ClassId} (distinct : known.Nodup) :
    (addNew known parents).Nodup := by
  induction parents generalizing known with
  | nil => exact distinct
  | cons p rest ih =>
    rw [addNew]
    split
    · exact ih distinct
    · rename_i fresh
      refine ih (List.nodup_append.mpr ⟨distinct, by simp, ?_⟩)
      rintro c member d last rfl
      exact fresh (List.mem_singleton.mp last ▸ member)

theorem basesInherit (g : InheritanceGraph) (child c : ClassId) (parents : List ClassId) :
    (g.inherit child parents).bases c =
      if c = child then addNew (g.bases child) parents else g.bases c := by
  rw [inherit, bases, lookupReplaced]
  split <;> rfl

theorem hasBaseInherit :
    (g.inherit child [parent]).HasBase c b ↔ g.HasBase c b ∨ c = child ∧ b = parent := by
  rw [HasBase, basesInherit]
  split
  · rename_i same
    subst same
    simp [memAddNew, HasBase]
  · rename_i other
    simp [HasBase, other]

/- A walk in the larger graph is one in the smaller graph, or it passes the new base. -/
theorem walkInherit (walk : Relation.TransGen (g.inherit child [parent]).HasBase c a) :
    Relation.TransGen g.HasBase c a ∨ g.Path c child ∧ g.Path parent a := by
  induction walk with
  | single base =>
    rcases hasBaseInherit.mp base with old | ⟨rfl, rfl⟩
    · exact .inl (.single old)
    · exact .inr ⟨.refl, .refl⟩
  | tail _ base ih =>
    rcases hasBaseInherit.mp base with old | ⟨rfl, rfl⟩
    · exact ih.imp (fun way => way.tail old) (fun ⟨up, down⟩ => ⟨up, down.tail old⟩)
    · exact .inr ⟨ih.elim (fun way => way.to_reflTransGen) (fun ways => ways.1), .refl⟩

theorem inheritAcyclic (acyclic : g.Acyclic) (safe : g.wouldCycle child parent = false) :
    (g.inherit child [parent]).Acyclic := by
  intro c loop
  rcases walkInherit loop with old | ⟨up, down⟩
  · exact acyclic c old
  · have closes : g.isDerivedFrom parent child = true := derivedIff.mpr (down.trans up)
    simp [wouldCycle, closes] at safe

/- The guard refuses a base exactly if recording it closes a cycle. -/
theorem guardExact (acyclic : g.Acyclic) :
    g.wouldCycle child parent = true ↔ ¬ (g.inherit child [parent]).Acyclic := by
  constructor
  · intro closes still
    have back : (g.inherit child [parent]).Path parent child :=
      pathMono (fun _ _ base => hasBaseInherit.mpr (.inl base)) (derivedIff.mp closes)
    exact still child (.head' (hasBaseInherit.mpr (.inr ⟨rfl, rfl⟩)) back)
  · intro cyclic
    by_contra safe
    exact cyclic (inheritAcyclic acyclic (by simpa using safe))

end GradualTypes.InheritanceGraph
