import GradualTypes.Proofs.ResolutionOrder

/-! When bases can be merged. A merge keeps the order of every sequence and takes whichever head is free; as
long as some order without repetitions holds all sequences, there always is such a head, so that taking one
never leads into a dead end. A class therefore has a linearization exactly if no cycle lies above it and each
class above it has an order that agrees with those of its bases, and the linearization agrees with the order
of every class in it. -/
namespace GradualTypes.InheritanceGraph

variable {g : InheritanceGraph} {a b c d h : ClassId} {l order : List ClassId} {seqs : List (List ClassId)}
  {path : List ClassId}

theorem dropHeadKept {s rest : List ClassId} (kept : (dropHead h s).Sublist rest) : s.Sublist (h :: rest) := by
  cases s with
  | nil => exact List.nil_sublist _
  | cons e s =>
    by_cases same : e = h
    · subst same
      exact List.Sublist.cons_cons e (by simpa [dropHead] using kept)
    · exact List.Sublist.cons h (by simpa [dropHead, same] using kept)

theorem dropHeadSublist (h : ClassId) (s : List ClassId) : (dropHead h s).Sublist s := by
  cases s with
  | nil => exact List.Sublist.refl []
  | cons e s =>
    rw [dropHead]
    split
    · exact List.sublist_cons_self e s
    · exact List.Sublist.refl _

/- What is merged keeps the order of each sequence. -/
theorem mergeKeeps (merged : merge seqs = some order) : ∀ s ∈ seqs, s.Sublist order := by
  induction seqs using merge.induct generalizing order with
  | case1 seqs spent =>
    intro s member
    have none' : s = [] := by simpa using List.all_eq_true.mp spent s member
    exact none' ▸ List.nil_sublist order
  | case2 seqs more stuck => simp [mergeStuck more stuck] at merged
  | case3 seqs more h next ih =>
    rw [mergeNext more next] at merged
    obtain ⟨rest, below, rfl⟩ := Option.map_eq_some_iff.mp merged
    intro s member
    exact dropHeadKept (ih below _ (List.mem_map_of_mem member))

/- Where one order without repetitions holds all sequences, its first class that is left stands behind no
other one. -/
theorem freeHead (distinct : l.Nodup) (inside : ∀ s ∈ seqs, s.Sublist l) (more : seqs.all List.isEmpty ≠ true) :
    ∃ h ∈ seqs.filterMap List.head?, ∀ s ∈ seqs, h ∉ s.tail := by
  induction l with
  | nil =>
    refine absurd (List.all_eq_true.mpr fun s member => ?_) more
    simpa using List.sublist_nil.mp (inside s member)
  | cons first rest ih =>
    obtain ⟨fresh, distinct⟩ := List.nodup_cons.mp distinct
    have tails : ∀ s ∈ seqs, s.tail.Sublist rest := fun s member => (inside s member).tail
    by_cases leads : ∃ s ∈ seqs, first ∈ s
    · obtain ⟨s, member, left⟩ := leads
      refine ⟨first, ?_, fun s member behind => fresh ((tails s member).subset behind)⟩
      cases s with
      | nil => cases left
      | cons e s =>
        have head : e = first := by
          rcases List.mem_cons.mp left with same | behind
          · exact same.symm
          · exact absurd ((tails _ member).subset behind) fresh
        exact List.mem_filterMap.mpr ⟨_, member, by rw [List.head?_cons, head]⟩
    · refine ih distinct fun s member => ?_
      rcases List.sublist_cons_iff.mp (inside s member) with kept | ⟨s', rfl, -⟩
      · exact kept
      · exact absurd ⟨_, member, List.mem_cons_self⟩ leads

/- Taking a head only shortens sequences, so that the order that held them all holds them still. -/
theorem mergeExists (distinct : l.Nodup) (inside : ∀ s ∈ seqs, s.Sublist l) : ∃ order, merge seqs = some order := by
  induction seqs using merge.induct with
  | case1 seqs spent => exact ⟨[], by rw [merge, if_pos spent]⟩
  | case2 seqs more stuck =>
    obtain ⟨h, head, free⟩ := freeHead distinct inside more
    have refused := List.find?_eq_none.mp stuck h head
    exact absurd (List.all_eq_true.mpr fun s member => by simpa using free s member) refused
  | case3 seqs more h next ih =>
    have later : ∀ s ∈ advance h seqs, s.Sublist l := by
      intro s member
      obtain ⟨s, whole, rfl⟩ := List.mem_map.mp member
      exact (dropHeadSublist h s).trans (inside s whole)
    obtain ⟨order, merged⟩ := ih later
    exact ⟨h :: order, by rw [mergeNext more next, merged, Option.map_some]⟩

/- No cycle of bases is reached from a class. -/
def NoCycleAbove (g : InheritanceGraph) (c : ClassId) : Prop :=
  ∀ d, g.Path c d → ¬ Relation.TransGen g.HasBase d d

/- The proper ancestors of a class, each once, in an order that holds its bases and their linearizations. -/
structure Ordered (g : InheritanceGraph) (c : ClassId) (l : List ClassId) : Prop where
  distinct : l.Nodup
  ancestors : ∀ a, a ∈ l ↔ Relation.TransGen g.HasBase c a
  bases : (g.bases c).Sublist l
  uppers : ∀ b ∈ g.bases c, ∀ order, g.linearize b = some order → order.Sublist l

section
variable {α β : Type} {f f' : α → Option β} {items : List α} {results : List β}

theorem mapMImp (more : ∀ a b, f a = some b → f' a = some b) (done : items.mapM f = some results) :
    items.mapM f' = some results := by
  induction items generalizing results with
  | nil => simpa using done
  | cons a rest ih =>
    rw [List.mapM_cons] at done ⊢
    obtain ⟨first, found, done⟩ := Option.bind_eq_some_iff.mp done
    obtain ⟨later, others, last⟩ := Option.bind_eq_some_iff.mp done
    rw [more a first found, ih others]
    exact last

theorem mapMExists (each : ∀ a ∈ items, ∃ b, f a = some b) : ∃ results, items.mapM f = some results := by
  induction items with
  | nil => exact ⟨[], rfl⟩
  | cons a rest ih =>
    obtain ⟨⟨first, found⟩, others⟩ := List.forall_mem_cons.mp each
    obtain ⟨later, done⟩ := ih others
    exact ⟨first :: later, by simp [found, done]⟩

end

/- A class that was linearized on one path is linearized alike on every path that holds no class above it:
on its own path it met none either. -/
theorem linearizeElsewhere {path' : List ClassId} (linear : g.linearizeWithin path c = some order)
    (apart : ∀ a, g.Path c a → a ∉ path') : g.linearizeWithin path' c = some order := by
  induction path, c using linearizeWithin.induct g generalizing order path' with
  | case1 path c cycle => exact absurd cycle (linearizeFresh linear)
  | case2 path c fresh ih =>
    obtain ⟨above, rest, bases, merged, last⟩ := (linearizeUnfold fresh).mp linear
    refine (linearizeUnfold (apart c .refl)).mpr ⟨above, rest, mapMImp (fun b upper found => ?_) bases, merged, last⟩
    have loopFree : ¬ g.Path b.val c := fun back =>
      (linearizeDistinct found).2.2 c ((memLinearizeWithin found).mpr back) List.mem_cons_self
    refine ih b found fun a way => List.not_mem_cons_of_ne_of_not_mem ?_ (apart a (.head b.property way))
    exact fun same => loopFree (same ▸ way)

/- A linearization is the class in front of an order of its proper ancestors, and no cycle leads back to it. -/
theorem linearizeOrdered (linear : g.linearize c = some order) :
    ∃ l, c :: l = order ∧ g.Ordered c l ∧ ¬ Relation.TransGen g.HasBase c c ∧
      ∀ b ∈ g.bases c, ∃ upper, g.linearize b = some upper := by
  obtain ⟨above, rest, bases, merged, rfl⟩ := (linearizeUnfold List.not_mem_nil).mp linear
  have kept := mergeKeeps merged
  have uppers : ∀ b ∈ g.bases c, ∃ upper, g.linearizeWithin [c] b = some upper ∧ g.linearize b = some upper ∧
      upper.Sublist rest := by
    intro b base
    obtain ⟨upper, found⟩ := (memMapM bases).2 ⟨b, base⟩ (List.mem_attach _ _)
    have listed : upper ∈ above := ((memMapM bases).1 upper).mpr ⟨_, List.mem_attach _ _, found⟩
    exact ⟨upper, found, linearizeElsewhere found (by simp), kept upper (List.mem_append_left _ listed)⟩
  have acyclic : ¬ Relation.TransGen g.HasBase c c := by
    intro loop
    obtain ⟨b, base, back⟩ := Relation.TransGen.head'_iff.mp loop
    obtain ⟨upper, found, -, -⟩ := uppers b base
    exact (linearizeDistinct found).2.2 c ((memLinearizeWithin found).mpr back) List.mem_cons_self
  obtain ⟨-, distinct, -⟩ := linearizeDistinct linear
  obtain ⟨own, distinct⟩ := List.nodup_cons.mp distinct
  refine ⟨rest, rfl, ⟨distinct, fun a => ?_, kept _ (by simp), fun b base upper found => ?_⟩, acyclic,
    fun b base => ?_⟩
  · have member : a ∈ c :: rest ↔ g.Path c a := memLinearizeWithin linear
    rw [Path, Relation.reflTransGen_iff_eq_or_transGen, List.mem_cons] at member
    constructor
    · intro inside
      exact (member.mp (.inr inside)).resolve_left fun same => own (same ▸ inside)
    · intro way
      exact (member.mpr (.inr way)).resolve_left fun same => acyclic (same ▸ way)
  · obtain ⟨upper', -, found', held⟩ := uppers b base
    cases found.symm.trans found'
    exact held
  · obtain ⟨upper, -, found, -⟩ := uppers b base
    exact ⟨upper, found⟩

/- Whatever a linearized class derives from is linearized too, in the same order. -/
theorem linearizeAbove (linear : g.linearize c = some order) (way : g.Path c d) :
    ∃ upper, g.linearize d = some upper ∧ upper.Sublist order := by
  induction way with
  | refl => exact ⟨order, linear, List.Sublist.refl order⟩
  | @tail d b _ base ih =>
    obtain ⟨upper, found, held⟩ := ih
    obtain ⟨l, rfl, ordered, -, each⟩ := linearizeOrdered found
    obtain ⟨top, found'⟩ := each b base
    exact ⟨top, found', (ordered.uppers b base top found').trans ((List.sublist_cons_self d l).trans held)⟩

theorem linearizeExists (acyclic : g.NoCycleAbove c) (ordered : ∀ d, g.Path c d → ∃ l, g.Ordered d l)
    (apart : ∀ p ∈ path, ¬ g.Path c p) : ∃ order, g.linearizeWithin path c = some order := by
  induction path, c using linearizeWithin.induct g with
  | case1 path c cycle => exact absurd .refl (apart c cycle)
  | case2 path c fresh ih =>
    have each : ∀ b ∈ (g.bases c).attach, ∃ upper, g.linearizeWithin (c :: path) b.val = some upper := by
      intro b _
      have base : g.HasBase c b.val := b.property
      refine ih b (fun d way => acyclic d (.head base way)) (fun d way => ordered d (.head base way)) ?_
      refine List.forall_mem_cons.mpr ⟨fun back => ?_, fun p member way => apart p member (.head base way)⟩
      exact acyclic c .refl (.head' base back)
    obtain ⟨above, bases⟩ := mapMExists each
    obtain ⟨l, order⟩ := ordered c .refl
    have inside : ∀ s ∈ above ++ [g.bases c], s.Sublist l := by
      intro s member
      rcases List.mem_append.mp member with upper | own
      · obtain ⟨b, -, found⟩ := ((memMapM bases).1 s).mp upper
        exact order.uppers b b.property s (linearizeElsewhere found (by simp))
      · exact List.mem_singleton.mp own ▸ order.bases
    obtain ⟨rest, merged⟩ := mergeExists order.distinct inside
    exact ⟨c :: rest, (linearizeUnfold fresh).mpr ⟨above, rest, bases, merged, rfl⟩⟩

/-- A class has a linearization exactly if no cycle of bases is reached from it and each class reached, itself
included, has an order of its proper ancestors that agrees with its bases and their linearizations. In a
linearization every class stands before its proper ancestors, bases stand in their recorded order, and all
classes are linearized themselves, in the same order. -/
theorem linearizationExact (g : InheritanceGraph) (c : ClassId) :
    ((∃ order, g.linearize c = some order) ↔
      g.NoCycleAbove c ∧ ∀ d, g.Path c d → ∃ l, g.Ordered d l) ∧
    ∀ order, g.linearize c = some order →
      order.Nodup ∧
      (∀ d ∈ order, ∀ a, Relation.TransGen g.HasBase d a → [d, a].Sublist order) ∧
      (∀ d ∈ order, (g.bases d).Sublist order) ∧
      ∀ d ∈ order, g.linearize d = some (g.resolutionOrder d) ∧ (g.resolutionOrder d).Sublist order := by
  have above : ∀ {order d}, g.linearize c = some order → d ∈ order →
      ∃ l, g.linearize d = some (d :: l) ∧ (d :: l).Sublist order ∧ g.Ordered d l := by
    intro order d linear member
    obtain ⟨upper, found, held⟩ := linearizeAbove linear ((memLinearizeWithin linear).mp member)
    obtain ⟨l, rfl, ordered, -, -⟩ := linearizeOrdered found
    exact ⟨l, found, held, ordered⟩
  refine ⟨⟨?_, fun ⟨acyclic, ordered⟩ => linearizeExists acyclic ordered nofun⟩, fun order linear =>
    ⟨(linearizeDistinct linear).2.1, fun d member a way => ?_, fun d member => ?_, fun d member => ?_⟩⟩
  · rintro ⟨order, linear⟩
    have reached : ∀ d, g.Path c d → ∃ l, g.Ordered d l ∧ ¬ Relation.TransGen g.HasBase d d := by
      intro d way
      obtain ⟨upper, found, -⟩ := linearizeAbove linear way
      obtain ⟨l, -, ordered, acyclic, -⟩ := linearizeOrdered found
      exact ⟨l, ordered, acyclic⟩
    exact ⟨fun d way => (reached d way).elim fun _ h => h.2, fun d way => (reached d way).imp fun _ h => h.1⟩
  · obtain ⟨l, -, held, ordered⟩ := above linear member
    have behind : [a].Sublist l := List.singleton_sublist.mpr ((ordered.ancestors a).mpr way)
    exact (behind.cons_cons d).trans held
  · obtain ⟨l, -, held, ordered⟩ := above linear member
    exact (ordered.bases.trans (List.sublist_cons_self d l)).trans held
  · obtain ⟨l, found, held, -⟩ := above linear member
    have same : g.resolutionOrder d = d :: l := by rw [resolutionOrder, found, Option.getD_some]
    exact same ▸ ⟨found, held⟩

end GradualTypes.InheritanceGraph
