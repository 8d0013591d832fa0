import GradualTypes.Proofs.Lowering
import GradualTypes.Proofs.MatchOrder
import GradualTypes.Proofs.Unrolling

/-! Aliases and what they stand for. References in a question are resolved one at a time, while those in
the body of an alias are replaced all at once and the unions around them built anew. As the expected type
both come to the same. As the actual type they differ in one thing: a union is searched for an unknown
member before the references among its members are resolved. -/
namespace GradualTypes

namespace Ty

def answersUnknown (answer : RefId → Ty) : Ty → Bool
  | reference r => answer r = unknown
  | _ => false

mutual
/- Some union has a reference for a member that is unknown once it is resolved, and no member that is
unknown as it stands. -/
def hidesUnknown (answer : RefId → Ty) : Ty → Bool
  | unknown => false
  | missing => false
  | reference _ => false
  | nominal _ => false
  | collection _ element => hidesUnknown answer element
  | tuple _ elements => anyHides answer elements
  | union members =>
    (!members.contains unknown && members.any (answersUnknown answer)) || anyHides answer members

def anyHides (answer : RefId → Ty) : List Ty → Bool
  | [] => false
  | t :: ts => hidesUnknown answer t || anyHides answer ts
end

theorem noneHides {answer : RefId → Ty} {ts : List Ty} :
    anyHides answer ts = false ↔ ∀ t ∈ ts, hidesUnknown answer t = false := by
  induction ts with
  | nil => simp [anyHides]
  | cons t ts ih => simp [anyHides, ih]

/- Only unknown itself, or a reference to it, is unknown once its references are replaced. -/
theorem substituteUnknown {answer : RefId → Ty} {t : Ty} (hole : t.substitute answer = unknown) :
    t = unknown ∨ answersUnknown answer t = true := by
  cases t with
  | unknown => exact .inl rfl
  | reference r => exact .inr (by simpa [answersUnknown, substitute] using hole)
  | union ms => exact absurd hole unionOfUnknown
  | _ => simp [substitute] at hole

end Ty

namespace Context

variable {x : Context}

theorem widerCongruence (settled : x.resolver.Settled) (plain : x.classes.NoTupleNames) :
    Congruence x.Wider x.Wider where
  refl := x.widerRefl
  weaken _ _ h := h
  collection c _ _ h := widerCollection settled c h
  tuple c _ _ h := widerTuple settled plain c h
  union h := widerUnion settled h

theorem looserCongruence (settled : x.resolver.Settled) (plain : x.classes.NoTupleNames) :
    Congruence x.Accepted x.Looser where
  refl := x.looserRefl
  weaken _ _ h := h.accepted
  collection c _ _ h := looserCollection settled c h
  tuple c _ _ h := looserTuple settled plain c h
  union h := looserUnion settled h

/- Each part of a row beside itself with its references replaced. -/
theorem besideSubstituted {R : Ty → Ty → Prop} {answer : RefId → Ty} {ts : List Ty}
    (each : ∀ t ∈ ts, R t (t.substitute answer)) : List.Forall₂ R ts (Ty.substituteAll answer ts) := by
  rw [Ty.substituteAllMap, List.forall₂_map_right_iff]
  exact List.forall₂_same.mpr each

/- As the expected type, a type and the one with all its references replaced are the same. -/
theorem substitutedWider (settled : x.resolver.Settled) (plain : x.classes.NoTupleNames) (t : Ty) :
    x.Wider t (t.substitute x.resolver.answer) ∧ x.Wider (t.substitute x.resolver.answer) t := by
  have keeps := (widerCongruence settled plain).both
  induction t with
  | unknown | missing | nominal => exact ⟨x.widerRefl _, x.widerRefl _⟩
  | reference r =>
    have same := fun a => matchReferenceLeft settled r a
    exact ⟨fun a h => same a ▸ h, fun a h => (same a).symm ▸ h⟩
  | collection c element ih => exact keeps.collection c ih
  | tuple c elements ih => exact keeps.tuple c (besideSubstituted ih)
  | union ms ih =>
    have built := keeps.union (besideSubstituted ih)
    exact ⟨widerTrans (widerNode settled ms).1 built.1, widerTrans built.2 (widerNode settled ms).2⟩

/- As the actual type, replacing references never loses a match. -/
theorem substitutedLooser (settled : x.resolver.Settled) (plain : x.classes.NoTupleNames) (t : Ty) :
    x.Looser t (t.substitute x.resolver.answer) := by
  have keeps := looserCongruence settled plain
  induction t with
  | unknown | missing | nominal => exact x.looserRefl _
  | reference r => exact ⟨nofun, fun e h => matchReferenceRight settled e r ▸ h⟩
  | collection c element ih => exact keeps.collection c ih.accepted
  | tuple c elements ih =>
    exact keeps.tuple c ((besideSubstituted ih).imp (fun _ _ h => h.accepted))
  | union ms ih =>
    exact looserTrans (looserNode settled ms) (keeps.union (besideSubstituted ih))

/- It does not win one either, unless a union hides a member that is unknown. -/
theorem substitutedAccepted (settled : x.resolver.Settled) (plain : x.classes.NoTupleNames) (t : Ty)
    (open' : t.hidesUnknown x.resolver.answer = false) :
    x.Accepted (t.substitute x.resolver.answer) t := by
  induction t with
  | unknown | missing | nominal => exact fun e h => h
  | reference r => exact fun e h => (matchReferenceRight settled e r).symm ▸ h
  | collection c element ih => exact (looserCollection settled c (ih open')).accepted
  | tuple c elements ih =>
    have each := fun e member => ih e member (Ty.noneHides.mp open' e member)
    apply Looser.accepted
    apply looserTuple settled plain c
    rw [Ty.substituteAllMap, List.forall₂_map_left_iff]
    exact List.forall₂_same.mpr each
  | union ms ih =>
    simp only [Ty.hidesUnknown, Bool.or_eq_false_iff, Bool.and_eq_false_iff, Bool.not_eq_false',
      List.contains_iff_mem, List.any_eq_false] at open'
    intro e h
    rw [Ty.substitute, matchUnionOfRight settled, Ty.substituteAllMap] at h
    rw [matchUnionRight settled]
    rcases h with hole | each
    · obtain ⟨m, member, same⟩ := List.mem_map.mp hole
      rcases Ty.substituteUnknown same with rfl | hidden
      · exact .inl member
      · rcases open'.1 with shown | none'
        · exact .inl shown
        · exact absurd hidden (none' m member)
    · right
      intro m member
      exact ih m member (Ty.noneHides.mp open'.2 m member) e (each _ (List.mem_map_of_mem member))

end Context

namespace Universe

variable {u : Universe}

theorem contextSettled (u : Universe) : u.context.resolver.Settled :=
  Resolver.ofTableSettled u.references

theorem matchLowered {e a : TypeExpr} {t s : Ty} (left : u.lower e = .ok t) (right : u.lower a = .ok s) :
    u.isMatch e a = .ok (u.context.isMatch t s) := by
  simp [isMatch, left, right, bind, Except.bind]

theorem matchAgreesLeft {e e' : TypeExpr} (other : TypeExpr)
    (agrees : Agrees (fun t t' => u.context.Wider t t' ∧ u.context.Wider t' t) (u.lower e) (u.lower e')) :
    u.isMatch e other = u.isMatch e' other := by
  apply Agrees.same
  refine agrees.bind (fun t t' wider => ?_)
  refine (Agrees.refl (R := fun a b => a = b) (fun _ => rfl) _).bind (fun a b same => ?_)
  subst same
  exact .ok (Bool.eq_iff_iff.mpr ⟨wider.1 a, wider.2 a⟩)

theorem matchAgreesRight {a a' : TypeExpr} (other : TypeExpr)
    (agrees : Agrees (fun t t' => u.context.Accepted t t' ∧ u.context.Accepted t' t)
      (u.lower a) (u.lower a')) :
    u.isMatch other a = u.isMatch other a' := by
  apply Agrees.same
  refine (Agrees.refl (R := fun a b => a = b) (fun _ => rfl) _).bind (fun e f same => ?_)
  subst same
  refine agrees.bind (fun t t' accepted => ?_)
  exact .ok (Bool.eq_iff_iff.mpr ⟨accepted.1 e, accepted.2 e⟩)

theorem matchKeptRight {a a' : TypeExpr} (other : TypeExpr)
    (agrees : Agrees u.context.Accepted (u.lower a) (u.lower a'))
    (matched : u.isMatch other a = .ok true) : u.isMatch other a' = .ok true := by
  unfold isMatch at matched ⊢
  cases left : u.lower other with
  | error e => simp [left, bind, Except.bind] at matched
  | ok t =>
    rw [left] at matched
    generalize u.lower a = lowered, u.lower a' = lowered' at agrees matched
    cases agrees with
    | error e => simp [bind, Except.bind] at matched
    | ok accepted =>
      simp only [bind, Except.bind, Except.ok.injEq] at matched ⊢
      exact accepted t matched

/- What an alias that does not occur inside itself is resolved to: its body with every reference resolved. -/
theorem resolveBody {r : RefId} {target : Ty} (bound : u.references.binding? r = some target)
    (once : ¬ u.references.Recursive r) (affordable : u.references.openings 3 [] r ≤ 64) :
    u.context.resolver.answer r = target.substitute u.context.resolver.answer := by
  have whole := u.references.resolveDirect once affordable
  rw [ReferenceTable.direct, bound] at whole
  exact whole

/-- An alias and the expression it is declared with are the same wherever they stand in an expected type.
In an actual type the expression never matches where the alias does not, and they are the same if no union
of the expression hides an unknown member; an expression that is unknown itself must not become a member of
a union there. -/
theorem aliasInlined (u : Universe) (plain : u.classes.NoTupleNames) {name : String} {body : TypeExpr}
    {r : RefId} {target : Ty} (named : u.alias? name = some r)
    (bound : u.references.binding? r = some target) (lowers : u.lower body = .ok target)
    (once : ¬ u.references.Recursive r) (affordable : u.references.openings 3 [] r ≤ 64)
    (spot : Spot) (other : TypeExpr) :
    u.isMatch (spot.fill (.aliased name)) other = u.isMatch (spot.fill body) other ∧
      (¬ (body = .unknown ∧ spot.isMember = true) →
        (u.isMatch other (spot.fill body) = .ok true →
          u.isMatch other (spot.fill (.aliased name)) = .ok true) ∧
        (target.hidesUnknown u.references.resolve = false →
          u.isMatch other (spot.fill (.aliased name)) = u.isMatch other (spot.fill body))) := by
  have settled := u.contextSettled
  have resolved := resolveBody bound once affordable
  have reference : u.lower (.aliased name) = .ok (.reference r) := by
    simp [lower, requireAlias, named, bind, Except.bind]
  have wider := Context.substitutedWider settled plain target
  have looser := Context.substitutedLooser settled plain target
  rw [← resolved] at wider looser
  have asLeft := fun a => Context.matchReferenceLeft settled r a
  have asRight := fun e => Context.matchReferenceRight settled e r
  refine ⟨?_, fun apart => ⟨?_, fun open' => ?_⟩⟩
  · apply matchAgreesLeft
    exact lowerFill (Context.widerCongruence settled plain).both reference lowers
      ⟨fun a h => wider.2 a (asLeft a ▸ h), fun a h => (asLeft a).symm ▸ wider.1 a h⟩ spot
      (fun _ => ⟨fun a h => wider.2 a (asLeft a ▸ h), fun a h => (asLeft a).symm ▸ wider.1 a h⟩)
  all_goals
    have known : spot.isMember = true → target ≠ .unknown := by
      rintro member rfl
      exact apart ⟨lowerUnknown lowers, member⟩
    have kept : u.context.Accepted target (.reference r) :=
      fun e h => (asRight e).symm ▸ looser.accepted e h
  · apply matchKeptRight
    exact lowerFill (Context.looserCongruence settled plain) lowers reference kept spot
      (fun member => ⟨fun h => absurd h (known member), kept⟩)
  · have won : u.context.Accepted (.reference r) target := fun e h =>
      Context.substitutedAccepted settled plain target open' e (resolved ▸ asRight e ▸ h)
    have proper : Ty.reference r ≠ .unknown := by simp
    apply matchAgreesRight
    exact lowerFill (Context.looserCongruence settled plain).both reference lowers ⟨won, kept⟩ spot
      (fun member => ⟨⟨fun h => absurd h proper, won⟩, ⟨fun h => absurd h (known member), kept⟩⟩)

/- `Gap` is unknown and `Maybe` a union with `Gap` for a member; `Ints` and `Pair` leave nothing open. -/
def shapes : Manifest :=
  ⟨[], [], ⟨[("Gap", .unknown), ("Maybe", .union [.named "int", .aliased "Gap"]),
    ("Ints", .collection "list" (.named "int")),
    ("Pair", .tuple [.aliased "Ints", .union [.named "str", .aliased "Ints"]])], by decide⟩⟩

def withShapes : Universe := (withBuiltins.install shapes).1

/- What the shapes are bound to; `int`, `str`, `list` and `tuple` are classes 5, 9, 12 and 13. -/
def shapeTable : ReferenceTable :=
  ⟨4, [(4, .tuple (some 13) [.reference 3, .union [.reference 3, .nominal (some 9)]]),
    (3, .collection (some 12) (.nominal (some 5))), (2, .union [.reference 1, .nominal (some 5)]),
    (1, .unknown)]⟩

/- One evaluation of the universe for all that is asked of it below. -/
theorem shapesInstalled :
    (withBuiltins.install shapes).2 = none ∧ withShapes.classes.NoTupleNames ∧
    withShapes.references = shapeTable ∧
    (withShapes.alias? "Gap" = some 1 ∧ withShapes.alias? "Maybe" = some 2 ∧
      withShapes.alias? "Ints" = some 3 ∧ withShapes.alias? "Pair" = some 4) ∧
    (withShapes.class? "int" = some 5 ∧ withShapes.class? "str" = some 9 ∧
      withShapes.class? "list" = some 12 ∧ withShapes.class? "tuple" = some 13) ∧
    withShapes.isMatch (.named "str") (.named "int") = .ok false ∧
    withShapes.isMatch (.named "str") (.union [.named "int", .unknown]) = .ok true := by
  decide +kernel

theorem shapesOnce (r : RefId) : ¬ shapeTable.Recursive r := ReferenceTable.earlierOnly (by decide) r

theorem shapeResolves {r : RefId} (affordable : shapeTable.openings 3 [] r ≤ 64) :
    shapeTable.resolve r = (shapeTable.direct r).substitute shapeTable.resolve :=
  shapeTable.resolveDirect (shapesOnce r) affordable

theorem gapResolves : shapeTable.resolve 1 = .unknown :=
  shapeResolves (r := 1) (by decide +kernel)

theorem maybeResolves : shapeTable.resolve 2 = .union [.unknown, .nominal (some 5)] := by
  rw [shapeResolves (by decide +kernel)]
  change Ty.unionOf [shapeTable.resolve 1, .nominal (some 5)] = _
  rw [gapResolves]
  decide

theorem intsResolves : shapeTable.resolve 3 = .collection (some 12) (.nominal (some 5)) :=
  shapeResolves (r := 3) (by decide +kernel)

/- Every shape carries a reference that is bound to what its expression lowers to, is not recursive and
costs little to expand. -/
theorem shapesLowered :
    ∀ a ∈ shapes.aliases.entries, ∃ r target, withShapes.alias? a.1 = some r ∧
      withShapes.references.binding? r = some target ∧ withShapes.lower a.2 = .ok target ∧
      ¬ withShapes.references.Recursive r ∧ withShapes.references.openings 3 [] r ≤ 64 := by
  obtain ⟨-, -, references, ⟨gap, maybe, ints, pair⟩, ⟨int, str, list, tuple⟩, -, -⟩ := shapesInstalled
  rw [references]
  intro a member
  simp only [shapes, List.mem_cons, List.not_mem_nil, or_false] at member
  rcases member with rfl | rfl | rfl | rfl
  · exact ⟨1, .unknown, gap, by decide, rfl, shapesOnce 1, by decide +kernel⟩
  · refine ⟨2, .union [.reference 1, .nominal (some 5)], maybe, by decide, ?_, shapesOnce 2,
      by decide +kernel⟩
    simp [lower, lowerAll, requireClass, requireAlias, gap, int, bind, Except.bind]
    decide
  · refine ⟨3, .collection (some 12) (.nominal (some 5)), ints, by decide, ?_, shapesOnce 3,
      by decide +kernel⟩
    simp [lower, requireClass, int, list, bind, Except.bind]
  · refine ⟨4, .tuple (some 13) [.reference 3, .union [.reference 3, .nominal (some 9)]], pair,
      by decide, ?_, shapesOnce 4, by decide +kernel⟩
    simp [lower, lowerAll, requireClass, requireAlias, ints, str, tupleClassName, tuple, bind, Except.bind]
    decide

def pairBody : TypeExpr := .tuple [.aliased "Ints", .union [.named "str", .aliased "Ints"]]

theorem pairInlined :
    withShapes.isMatch (.collection "list" (.aliased "Pair")) (.aliased "Maybe") =
        withShapes.isMatch (.collection "list" pairBody) (.aliased "Maybe") ∧
      withShapes.isMatch (.aliased "Maybe") (.union [.named "int", .aliased "Pair"]) =
        withShapes.isMatch (.aliased "Maybe") (.union [.named "int", pairBody]) := by
  obtain ⟨-, plain, references, ⟨-, -, -, pair⟩, -⟩ := shapesInstalled
  obtain ⟨r, target, named, bound, lowers, once, affordable⟩ :=
    shapesLowered ("Pair", pairBody) (by simp [shapes, pairBody])
  have shown : target.hidesUnknown withShapes.references.resolve = false := by
    have fourth : r = 4 := Option.some.inj (named.symm.trans pair)
    rw [references, fourth] at bound
    have same : target = .tuple (some 13) [.reference 3, .union [.reference 3, .nominal (some 9)]] :=
      Option.some.inj bound.symm
    rw [same, references]
    simp [Ty.hidesUnknown, Ty.anyHides, Ty.answersUnknown, intsResolves]
  constructor
  · exact (aliasInlined withShapes plain named bound lowers once affordable
      (.inCollection "list" .here) (.aliased "Maybe")).1
  · exact ((aliasInlined withShapes plain named bound lowers once affordable
      (.inUnion [.named "int"] .here []) (.aliased "Maybe")).2 (by simp [pairBody])).2 shown

/- Neither `Gap` nor `Maybe` is recursive or costly to expand, and each is bound to what its expression
lowers to. Yet `str` refuses a union with `Gap` for a member and accepts it with the expression of `Gap`
in its place, and it accepts `Maybe` and refuses the expression of `Maybe`. -/
theorem gapsNotTransparent :
    (withBuiltins.install shapes).2 = none ∧ withShapes.classes.NoTupleNames ∧
    (∀ a ∈ shapes.aliases.entries, ∃ r target, withShapes.alias? a.1 = some r ∧
      withShapes.references.binding? r = some target ∧ withShapes.lower a.2 = .ok target ∧
      ¬ withShapes.references.Recursive r ∧ withShapes.references.openings 3 [] r ≤ 64) ∧
    (("Gap", .unknown) ∈ shapes.aliases.entries ∧
      withShapes.isMatch (.named "str") (.union [.named "int", .aliased "Gap"]) = .ok false ∧
      withShapes.isMatch (.named "str") (.union [.named "int", .unknown]) = .ok true) ∧
    ("Maybe", .union [.named "int", .aliased "Gap"]) ∈ shapes.aliases.entries ∧
      withShapes.isMatch (.named "str") (.aliased "Maybe") = .ok true ∧
      withShapes.isMatch (.named "str") (.union [.named "int", .aliased "Gap"]) = .ok false := by
  obtain ⟨installed, plain, references, ⟨gap, maybe, -, -⟩, ⟨int, str, -, -⟩, different, hole⟩ :=
    shapesInstalled
  have settled := withShapes.contextSettled
  have strLowers : withShapes.lower (.named "str") = .ok (.nominal (some 9)) := by
    simp [lower, requireClass, str, bind, Except.bind]
  have intLowers : withShapes.lower (.named "int") = .ok (.nominal (some 5)) := by
    simp [lower, requireClass, int, bind, Except.bind]
  have unionLowers : withShapes.lower (.union [.named "int", .aliased "Gap"]) =
      .ok (Ty.unionOf [.nominal (some 5), .reference 1]) := by
    simp [lower, lowerAll, requireClass, requireAlias, int, gap, bind, Except.bind]
  have maybeLowers : withShapes.lower (.aliased "Maybe") = .ok (.reference 2) := by
    simp [lower, requireAlias, maybe, bind, Except.bind]
  have refused : withShapes.isMatch (.named "str") (.union [.named "int", .aliased "Gap"]) = .ok false := by
    rw [matchLowered strLowers intLowers] at different
    rw [matchLowered strLowers unionLowers, Except.ok.injEq, ← Bool.not_eq_true,
      Context.matchUnionOfRight settled]
    have refuses : withShapes.context.isMatch (.nominal (some 9)) (.nominal (some 5)) = false := by
      simpa using different
    simp [refuses]
  have accepted : withShapes.isMatch (.named "str") (.aliased "Maybe") = .ok true := by
    have resolved : withShapes.context.resolver.answer 2 = .union [.unknown, .nominal (some 5)] := by
      rw [← maybeResolves, ← references]
      rfl
    rw [matchLowered strLowers maybeLowers, Context.matchReferenceRight settled, resolved,
      (Context.matchUnionRight settled _ _).mpr (.inl (by simp))]
  exact ⟨installed, plain, shapesLowered, ⟨by simp [shapes], refused, hole⟩, by simp [shapes], accepted,
    refused⟩

end Universe
end GradualTypes
