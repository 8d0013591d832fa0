import GradualTypes.Proofs.Precision

/-! Types built alike. A type accepts itself, and two types built by the same steps match if they do in
the slots in which they differ. The actual union is taken apart first and the expected one searched then, so
that members are never compared in their order: what carries the proof is that a union accepts all that one
of its members accepts, be it a union or a reference itself. -/
namespace GradualTypes.Context

variable {x : Context}

theorem widerMember (settled : x.resolver.Settled) {e : Ty} {es : List Ty} (member : e ∈ es) :
    x.Wider e (Ty.unionOf es) := by
  apply widerOfClassLike settled
  intro a classLike accepts
  exact (matchUnionOfLeft settled es classLike).mpr ⟨e, member, accepts⟩

theorem collectionsMatch (settled : x.resolver.Settled) (c : Option ClassId) {e a : Ty}
    (inside : x.isMatch e a = true) : x.isMatch (.collection c e) (.collection c a) = true :=
  (matchCollections settled c c e a).mpr (.inr ⟨x.compatibleSelf c, inside⟩)

theorem tuplesMatch (settled : x.resolver.Settled) (c : Option ClassId) {es as : List Ty}
    (each : List.Forall₂ (fun e a => x.isMatch e a = true) es as) :
    x.isMatch (.tuple c es) (.tuple c as) = true :=
  (matchTuples settled c c es as).mpr (.inr each)

theorem matchSelf (settled : x.resolver.Settled) (t : Ty) : x.isMatch t t = true := by
  induction t using answerInduction settled with
  | unknown => exact matchUnknownLeft settled .unknown
  | missing => exact matchMissingLeft settled .missing
  | reference r ih => rwa [matchReferenceLeft settled, matchReferenceRight settled]
  | nominal c => exact (matchApart settled rfl rfl rfl).mpr (.inr (.inl (x.compatibleSelf c)))
  | collection c element ih => exact collectionsMatch settled c ih
  | tuple c es ih => exact tuplesMatch settled c (List.forall₂_same.mpr ih)
  | union ms ih =>
    refine (matchUnionRight settled _ ms).mpr (.inr fun m member => ?_)
    exact (widerNode settled ms).2 _ (widerMember settled member m (ih m member))

/- Reference 1 is a tree, that is an `int` or a list of trees; reference 2 is a row of eight such rows. -/
def forestTable : ReferenceTable :=
  ⟨2, [(2, .tuple none (List.replicate 8 (.reference 2))),
    (1, .union [.nominal (some 1), listOf (.reference 1)])]⟩

/- `int`, `str` and `list` without bases, with trees and rows. -/
def forest : Context := ⟨listing.classes, .empty, .standard, .ofTable forestTable⟩

end GradualTypes.Context
