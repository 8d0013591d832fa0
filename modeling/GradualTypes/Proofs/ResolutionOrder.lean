import GradualTypes.Linearization
import GradualTypes.Proofs.Ancestry

/-! What a resolution order is made of. Whether the bases could be merged or the order is depth first, it
holds a class exactly if a path of recorded bases leads there, on cyclic graphs too. -/
namespace GradualTypes.InheritanceGraph

variable {g : InheritanceGraph} {a c d h : ClassId}

theorem pathIff : g.Path c a ↔ a = c ∨ ∃ b ∈ g.bases c, g.Path b a := by
  rw [Path, Relation.ReflTransGen.cases_head_iff, eq_comm]
  rfl

theorem memDropHead {s : List ClassId} (member : c ∈ s) : c = h ∨ c ∈ dropHead h s := by
  cases s with
  | nil => simp at member
  | cons e s =>
    by_cases same : e = h
    · simpa [dropHead, same] using member
    · exact .inr (by simpa [dropHead, same] using member)

theorem dropHeadMem {s : List ClassId} (member : c ∈ dropHead h s) : c ∈ s := by
  cases s with
  | nil => simp [dropHead] at member
  | cons e s =>
    by_cases same : e = h
    · exact List.mem_cons_of_mem e (by simpa [dropHead, same] using member)
    · simpa [dropHead, same] using member

theorem mergeNext {seqs : List (List ClassId)} (more : seqs.all List.isEmpty ≠ true) (next : nextHead? seqs = some h) :
    merge seqs = (merge (advance h seqs)).map (h :: ·) := by
  rw [merge, if_neg more]
  split
  · simp_all
  · rename_i h' next'
    cases next.symm.trans next'
    rfl

theorem mergeStuck {seqs : List (List ClassId)} (more : seqs.all List.isEmpty ≠ true)
    (stuck : nextHead? seqs = none) : merge seqs = none := by
  rw [merge, if_neg more]
  split <;> simp_all

/- A merge loses nothing and adds nothing: each step moves one head to the result. -/
theorem memMerge {seqs : List (List ClassId)} {order : List ClassId} (merged : merge seqs = some order) :
    c ∈ order ↔ ∃ s ∈ seqs, c ∈ s := by
  induction seqs using merge.induct generalizing order with
  | case1 seqs spent =>
    rw [merge, if_pos spent, Option.some.injEq] at merged
    have none' : ∀ s ∈ seqs, s = [] := by simpa using spent
    simp only [← merged, List.not_mem_nil, false_iff, not_exists, not_and]
    rintro s member inside
    simp [none' s member] at inside
  | case2 seqs more stuck => simp [mergeStuck more stuck] at merged
  | case3 seqs more h next ih =>
    rw [mergeNext more next] at merged
    obtain ⟨rest, below, rfl⟩ := Option.map_eq_some_iff.mp merged
    obtain ⟨first, member, head⟩ := List.mem_filterMap.mp (List.mem_of_find?_eq_some next)
    rw [List.mem_cons, ih below]
    constructor
    · rintro (rfl | ⟨s, inside, left⟩)
      · exact ⟨first, member, List.mem_of_mem_head? head⟩
      · obtain ⟨s, whole, rfl⟩ := List.mem_map.mp inside
        exact ⟨s, whole, dropHeadMem left⟩
    · rintro ⟨s, inside, left⟩
      exact (memDropHead left).imp id (fun kept => ⟨_, List.mem_map_of_mem inside, kept⟩)

theorem memMapM {α β : Type} {f : α → Option β} {l : List α} {r : List β} (done : l.mapM f = some r) :
    (∀ b, b ∈ r ↔ ∃ a ∈ l, f a = some b) ∧ ∀ a ∈ l, ∃ b, f a = some b := by
  induction l generalizing r with
  | nil => simp_all
  | cons a rest ih =>
    rw [List.mapM_cons] at done
    obtain ⟨first, found, done⟩ := Option.bind_eq_some_iff.mp done
    obtain ⟨later, others, last⟩ := Option.bind_eq_some_iff.mp done
    cases last
    obtain ⟨listed, all⟩ := ih others
    exact ⟨by simp [found, listed, eq_comm], List.forall_mem_cons.mpr ⟨⟨first, found⟩, all⟩⟩

theorem linearizeUnfold {path order : List ClassId} (fresh : c ∉ path) :
    g.linearizeWithin path c = some order ↔ ∃ above rest,
      (g.bases c).attach.mapM (fun b => g.linearizeWithin (c :: path) b.val) = some above ∧
      merge (above ++ [g.bases c]) = some rest ∧ c :: rest = order := by
  rw [linearizeWithin, dif_neg fresh]
  simp only [Option.bind_eq_bind, Option.bind_eq_some_iff, Option.some.injEq, exists_and_left]

theorem linearizeFresh {path order : List ClassId} (linear : g.linearizeWithin path c = some order) : c ∉ path := by
  intro cycle
  rw [linearizeWithin, dif_pos cycle] at linear
  cases linear

/- What is linearized from a class are the classes it leads to; the linearizations of its bases are merged
with the bases themselves. -/
theorem memLinearizeWithin {path order : List ClassId} (linear : g.linearizeWithin path c = some order) :
    a ∈ order ↔ g.Path c a := by
  induction path, c using linearizeWithin.induct g generalizing order with
  | case1 path c cycle => exact absurd cycle (linearizeFresh linear)
  | case2 path c fresh ih =>
    obtain ⟨above, rest, bases, merged, rfl⟩ := (linearizeUnfold fresh).mp linear
    rw [List.mem_cons, memMerge merged, pathIff]
    refine or_congr_right ⟨?_, ?_⟩
    · rintro ⟨s, member, inside⟩
      rcases List.mem_append.mp member with upper | own
      · obtain ⟨b, -, found⟩ := ((memMapM bases).1 s).mp upper
        exact ⟨b, b.property, (ih b found).mp inside⟩
      · cases List.mem_singleton.mp own
        exact ⟨a, inside, .refl⟩
    · rintro ⟨b, base, way⟩
      have listed := List.mem_attach (g.bases c) ⟨b, base⟩
      obtain ⟨s, found⟩ := (memMapM bases).2 _ listed
      have upper : s ∈ above := ((memMapM bases).1 s).mpr ⟨_, listed, found⟩
      exact ⟨s, List.mem_append_left _ upper, (ih ⟨b, base⟩ found).mpr way⟩

/- Depth first, nothing that a class leads to is left out: the classes of the order and those seen before
have no bases outside. -/
theorem depthFirstCloses {seen stack : List ClassId} (covered : g.Covered seen stack) :
    (∀ c ∈ stack, c ∈ seen ∨ c ∈ g.depthFirst seen stack) ∧
      ∀ c, c ∈ seen ∨ c ∈ g.depthFirst seen stack →
        ∀ b ∈ g.bases c, b ∈ seen ∨ b ∈ g.depthFirst seen stack := by
  induction seen, stack using depthFirst.induct g with
  | case1 seen => simpa [depthFirst, Covered] using covered
  | case2 seen c stack known ih =>
    rw [depthFirst, if_pos known]
    obtain ⟨started, closed⟩ := ih (covered.skip known)
    exact ⟨List.forall_mem_cons.mpr ⟨.inl known, started⟩, closed⟩
  | case3 seen c stack fresh ih =>
    rw [depthFirst, if_neg fresh]
    obtain ⟨started, closed⟩ := ih covered.visit
    -- The class that was visited counts as seen for the rest of the walk and comes first in its order.
    have moved : ∀ d, d ∈ c :: seen ∨ d ∈ g.depthFirst (c :: seen) (g.bases c ++ stack) ↔
        d ∈ seen ∨ d ∈ c :: g.depthFirst (c :: seen) (g.bases c ++ stack) := by
      simp only [List.mem_cons]
      tauto
    simp only [moved] at started closed
    refine ⟨List.forall_mem_cons.mpr ⟨.inr List.mem_cons_self, fun d later => ?_⟩, closed⟩
    exact started d (List.mem_append_right _ later)

theorem depthFirstReached {seen stack : List ClassId} (member : a ∈ g.depthFirst seen stack) :
    ∃ c ∈ stack, g.Path c a := by
  induction seen, stack using depthFirst.induct g with
  | case1 => simp [depthFirst] at member
  | case2 seen c stack known ih =>
    rw [depthFirst, if_pos known] at member
    obtain ⟨d, later, way⟩ := ih member
    exact ⟨d, List.mem_cons_of_mem c later, way⟩
  | case3 seen c stack fresh ih =>
    rw [depthFirst, if_neg fresh] at member
    rcases List.mem_cons.mp member with rfl | deeper
    · exact ⟨a, List.mem_cons_self, .refl⟩
    · obtain ⟨d, waiting, way⟩ := ih deeper
      rcases List.mem_append.mp waiting with base | later
      · exact ⟨c, List.mem_cons_self, .head base way⟩
      · exact ⟨d, List.mem_cons_of_mem c later, way⟩

theorem memDepthFirstOrder : a ∈ g.depthFirstOrder c ↔ g.Path c a := by
  constructor
  · intro member
    obtain ⟨d, start, way⟩ := depthFirstReached member
    rwa [List.mem_singleton.mp start] at way
  · intro way
    obtain ⟨started, closed⟩ := @depthFirstCloses g [] [c] (by simp [Covered])
    simp only [List.not_mem_nil, false_or] at started closed
    induction way with
    | refl => exact started c List.mem_cons_self
    | tail _ base ih => exact closed _ ih _ base

/-- The resolution order of a class holds the class and all that it derives from. -/
theorem memResolutionOrder : a ∈ g.resolutionOrder c ↔ g.Path c a := by
  rw [resolutionOrder]
  cases linear : g.linearize c with
  | none => exact memDepthFirstOrder
  | some order => exact memLinearizeWithin linear

theorem notDropHead {s : List ClassId} (behind : h ∉ s.tail) : h ∉ dropHead h s := by
  cases s with
  | nil => simp [dropHead]
  | cons e s =>
    rw [dropHead]
    split
    · exact behind
    · rename_i other
      exact List.not_mem_cons_of_ne_of_not_mem (fun same => other same.symm) behind

/- Whatever the sequences hold twice, a merge holds it once: the head that is moved stands nowhere else. -/
theorem mergeDistinct {seqs : List (List ClassId)} {order : List ClassId} (merged : merge seqs = some order) :
    order.Nodup := by
  induction seqs using merge.induct generalizing order with
  | case1 seqs spent =>
    rw [merge, if_pos spent, Option.some.injEq] at merged
    exact merged ▸ List.nodup_nil
  | case2 seqs more stuck => simp [mergeStuck more stuck] at merged
  | case3 seqs more h next ih =>
    rw [mergeNext more next] at merged
    obtain ⟨rest, below, rfl⟩ := Option.map_eq_some_iff.mp merged
    have behind : ∀ s ∈ seqs, h ∉ s.tail := by simpa using List.find?_some next
    refine List.nodup_cons.mpr ⟨fun again => ?_, ih below⟩
    obtain ⟨s, inside, left⟩ := (memMerge below).mp again
    obtain ⟨s, whole, rfl⟩ := List.mem_map.mp inside
    exact notDropHead (behind s whole) left

theorem linearizeDistinct {path order : List ClassId} (linear : g.linearizeWithin path c = some order) :
    order.head? = some c ∧ order.Nodup ∧ ∀ a ∈ order, a ∉ path := by
  induction path, c using linearizeWithin.induct g generalizing order with
  | case1 path c cycle => exact absurd cycle (linearizeFresh linear)
  | case2 path c fresh ih =>
    obtain ⟨above, rest, bases, merged, rfl⟩ := (linearizeUnfold fresh).mp linear
    have upper : ∀ s ∈ above, ∀ a ∈ s, a ∉ c :: path := by
      intro s member
      obtain ⟨b, -, found⟩ := ((memMapM bases).1 s).mp member
      exact (ih b found).2.2
    have later : ∀ a ∈ rest, a ∉ c :: path := by
      intro a member
      obtain ⟨s, listed, inside⟩ := (memMerge merged).mp member
      rcases List.mem_append.mp listed with up | own
      · exact upper s up a inside
      · -- A base is in its own linearization.
        cases List.mem_singleton.mp own
        obtain ⟨s, found⟩ := (memMapM bases).2 _ (List.mem_attach (g.bases c) ⟨a, inside⟩)
        have listed : s ∈ above := ((memMapM bases).1 s).mpr ⟨_, List.mem_attach _ _, found⟩
        exact upper s listed a ((memLinearizeWithin found).mpr .refl)
    refine ⟨rfl, List.nodup_cons.mpr ⟨fun again => later c again List.mem_cons_self, mergeDistinct merged⟩, ?_⟩
    exact List.forall_mem_cons.mpr ⟨fresh, fun a member known => later a member (List.mem_cons_of_mem c known)⟩

theorem depthFirstDistinct (seen stack : List ClassId) :
    (g.depthFirst seen stack).Nodup ∧ ∀ a ∈ g.depthFirst seen stack, a ∉ seen := by
  induction seen, stack using depthFirst.induct g with
  | case1 seen => simp [depthFirst]
  | case2 seen c stack known ih =>
    rw [depthFirst, if_pos known]
    exact ih
  | case3 seen c stack fresh ih =>
    rw [depthFirst, if_neg fresh]
    obtain ⟨distinct, new⟩ := ih
    refine ⟨List.nodup_cons.mpr ⟨fun again => new c again List.mem_cons_self, distinct⟩, ?_⟩
    exact List.forall_mem_cons.mpr ⟨fresh, fun a member known => new a member (List.mem_cons_of_mem c known)⟩

theorem resolutionOrderHead (g : InheritanceGraph) (c : ClassId) : (g.resolutionOrder c).head? = some c := by
  rw [resolutionOrder]
  cases linear : g.linearize c with
  | none => simp [depthFirstOrder, depthFirst]
  | some order => exact (linearizeDistinct linear).1

theorem resolutionOrderDistinct (g : InheritanceGraph) (c : ClassId) : (g.resolutionOrder c).Nodup := by
  rw [resolutionOrder]
  cases linear : g.linearize c with
  | none => exact (depthFirstDistinct [] [c]).1
  | some order => exact (linearizeDistinct linear).2.1

end GradualTypes.InheritanceGraph
