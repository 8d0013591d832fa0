import GradualTypes.Proofs.TypeTrees
import GradualTypes.Universe
import Mathlib.Data.List.Forall2

/-! Lowering. Two expressions that differ in one spot only fail alike, or give types that are related as the
types of that spot are, for any relation that building types keeps. What an expression lowers to is made of
the classes and references that its names stand for. -/
namespace GradualTypes

theorem boundIff {ε α β : Type} {m : Except ε α} {f : α → Except ε β} {b : β} :
    m >>= f = .ok b ↔ ∃ a, m = .ok a ∧ f a = .ok b := by
  cases m <;> simp [bind, Except.bind]

theorem boundOk {ε α β : Type} {m : Except ε α} {f : α → Except ε β} {b : β} (ok : m >>= f = .ok b) :
    ∃ a, m = .ok a ∧ f a = .ok b := boundIff.mp ok

/- Two results fail alike, or have related values. -/
inductive Agrees {ε α β : Type} (R : α → β → Prop) : Except ε α → Except ε β → Prop where
  | error (e : ε) : Agrees R (.error e) (.error e)
  | ok {a : α} {b : β} (related : R a b) : Agrees R (.ok a) (.ok b)

namespace Agrees

variable {ε α β γ δ : Type} {R : α → β → Prop} {S : γ → δ → Prop}

theorem bind {m : Except ε α} {m' : Except ε β} {f : α → Except ε γ} {f' : β → Except ε δ}
    (first : Agrees R m m') (next : ∀ a b, R a b → Agrees S (f a) (f' b)) :
    Agrees S (m >>= f) (m' >>= f') := by
  cases first with
  | error e => exact .error e
  | ok related => exact next _ _ related

theorem refl {R : α → α → Prop} (related : ∀ a, R a a) (m : Except ε α) : Agrees R m m := by
  cases m with
  | error e => exact .error e
  | ok a => exact .ok (related a)

theorem imp {R' : α → β → Prop} {m : Except ε α} {m' : Except ε β} (agrees : Agrees R m m')
    (weaker : ∀ a b, R a b → R' a b) : Agrees R' m m' := by
  cases agrees with
  | error e => exact .error e
  | ok related => exact .ok (weaker _ _ related)

theorem same {m m' : Except ε α} (agrees : Agrees (fun a b : α => a = b) m m') : m = m' := by
  cases agrees with
  | error e => rfl
  | ok same => rw [same]

theorem errorLeft {e : ε} {m : Except ε β} (agrees : Agrees R (.error e) m) : m = .error e := by
  cases agrees
  rfl

theorem okLeft {a : α} {m : Except ε β} (agrees : Agrees R (.ok a) m) : ∃ b, m = .ok b ∧ R a b := by
  cases agrees with
  | ok related => exact ⟨_, rfl, related⟩

theorem errorRight {e : ε} {m : Except ε α} (agrees : Agrees R m (.error e)) : m = .error e := by
  cases agrees
  rfl

theorem okRight {b : β} {m : Except ε α} (agrees : Agrees R m (.ok b)) : ∃ a, m = .ok a ∧ R a b := by
  cases agrees with
  | ok related => exact ⟨_, rfl, related⟩

theorem okIff {f : α → β} {m : Except ε α} {m' : Except ε β} (agrees : Agrees (fun a b => b = f a) m m') {b : β} :
    m' = .ok b ↔ ∃ a, m = .ok a ∧ f a = b := by
  cases agrees with
  | error e => simp
  | ok same => simp [same]

end Agrees

/- Relations that building types keeps. Of members of a union the inner relation is asked, of all other
parts the outer one. -/
structure Congruence (outer inner : Ty → Ty → Prop) : Prop where
  refl : ∀ t, inner t t
  weaken : ∀ t t', inner t t' → outer t t'
  collection : ∀ c {t t'}, outer t t' → inner (.collection c t) (.collection c t')
  tuple : ∀ c {ts ts'}, List.Forall₂ outer ts ts' → inner (.tuple c ts) (.tuple c ts')
  union : ∀ {ts ts'}, List.Forall₂ inner ts ts' → inner (Ty.unionOf ts) (Ty.unionOf ts')

theorem Congruence.both {outer inner : Ty → Ty → Prop} (keeps : Congruence outer inner) :
    Congruence (fun t t' => outer t t' ∧ outer t' t) (fun t t' => inner t t' ∧ inner t' t) where
  refl t := ⟨keeps.refl t, keeps.refl t⟩
  weaken t t' h := ⟨keeps.weaken t t' h.1, keeps.weaken t' t h.2⟩
  collection c _ _ h := ⟨keeps.collection c h.1, keeps.collection c h.2⟩
  tuple c _ _ h := ⟨keeps.tuple c (h.imp (fun _ _ r => r.1)), keeps.tuple c (h.imp (fun _ _ r => r.2)).flip⟩
  union := fun h => ⟨keeps.union (h.imp (fun _ _ r => r.1)), keeps.union (h.imp (fun _ _ r => r.2)).flip⟩

/- A place in an expression, at any depth. -/
inductive Spot where
  | here
  | inUnion (before : List TypeExpr) (spot : Spot) (after : List TypeExpr)
  | inTuple (before : List TypeExpr) (spot : Spot) (after : List TypeExpr)
  | inCollection (name : String) (spot : Spot)

namespace Spot

def fill : Spot → TypeExpr → TypeExpr
  | here, e => e
  | inUnion before spot after, e => .union (before ++ spot.fill e :: after)
  | inTuple before spot after, e => .tuple (before ++ spot.fill e :: after)
  | inCollection name spot, e => .collection name (spot.fill e)

/- What stands in the spot is itself a member of a union. -/
def isMember : Spot → Bool
  | here => false
  | inUnion _ here _ => true
  | inUnion _ spot _ => spot.isMember
  | inTuple _ spot _ => spot.isMember
  | inCollection _ spot => spot.isMember

end Spot

namespace Universe

variable {u : Universe} {R : Ty → Ty → Prop}

theorem lowerAllAround (refl : ∀ t, R t t) (before after : List TypeExpr) {e e' : TypeExpr}
    (agrees : Agrees R (u.lower e) (u.lower e')) :
    Agrees (List.Forall₂ R) (u.lowerAll (before ++ e :: after)) (u.lowerAll (before ++ e' :: after)) := by
  have same : ∀ ts : List Ty, List.Forall₂ R ts ts :=
    fun ts => List.forall₂_same.mpr (fun t _ => refl t)
  induction before with
  | nil =>
    simp only [List.nil_append, lowerAll]
    refine agrees.bind (fun t t' related => ?_)
    exact (Agrees.refl same _).bind (fun ts ts' rest => .ok (.cons related rest))
  | cons b before ih =>
    simp only [List.cons_append, lowerAll]
    refine (Agrees.refl refl _).bind (fun t t' related => ?_)
    exact ih.bind (fun ts ts' rest => .ok (.cons related rest))

variable {outer inner : Ty → Ty → Prop} {e e' : TypeExpr} {t t' : Ty}

/- Inside a larger expression the types of the whole are related even as members of a union. -/
theorem lowerFillInside (keeps : Congruence outer inner) (left : u.lower e = .ok t)
    (right : u.lower e' = .ok t') (related : outer t t') (spot : Spot) (proper : spot ≠ .here)
    (member : spot.isMember = true → inner t t') :
    Agrees inner (u.lower (spot.fill e)) (u.lower (spot.fill e')) := by
  have whole : Agrees outer (u.lower e) (u.lower e') := by
    rw [left, right]
    exact .ok related
  induction spot with
  | here => exact absurd rfl proper
  | inUnion before spot after ih =>
    have part : Agrees inner (u.lower (spot.fill e)) (u.lower (spot.fill e')) := by
      cases spot with
      | here =>
        simp only [Spot.fill, left, right]
        exact .ok (member rfl)
      | _ => exact ih (by simp) member
    simp only [Spot.fill, lower]
    exact (lowerAllAround keeps.refl before after part).bind (fun ts ts' each => .ok (keeps.union each))
  | inTuple before spot after ih =>
    have part : Agrees outer (u.lower (spot.fill e)) (u.lower (spot.fill e')) := by
      cases spot with
      | here => exact whole
      | _ => exact (ih (by simp) member).imp keeps.weaken
    simp only [Spot.fill, lower]
    exact (lowerAllAround (fun t => keeps.weaken t t (keeps.refl t)) before after part).bind
      (fun ts ts' each => .ok (keeps.tuple _ each))
  | inCollection name spot ih =>
    have part : Agrees outer (u.lower (spot.fill e)) (u.lower (spot.fill e')) := by
      cases spot with
      | here => exact whole
      | _ => exact (ih (by simp) member).imp keeps.weaken
    simp only [Spot.fill, lower]
    refine (Agrees.refl (R := fun c d => c = d) (fun _ => rfl) _).bind (fun c d same => ?_)
    subst same
    exact part.bind (fun t t' inside => .ok (keeps.collection _ inside))

theorem lowerFill (keeps : Congruence outer inner) (left : u.lower e = .ok t)
    (right : u.lower e' = .ok t') (related : outer t t') (spot : Spot)
    (member : spot.isMember = true → inner t t') :
    Agrees outer (u.lower (spot.fill e)) (u.lower (spot.fill e')) := by
  cases spot with
  | here =>
    simp only [Spot.fill, left, right]
    exact .ok related
  | _ => exact (lowerFillInside keeps left right related _ (by simp) member).imp keeps.weaken

/- Only an expression that leaves everything open lowers to the unknown type. -/
theorem lowerUnknown (lowers : u.lower e = .ok .unknown) : e = .unknown := by
  have union : ∀ ms, Except.ok (Ty.unionOf ms) ≠ (Except.ok .unknown : Except LowerError Ty) :=
    fun ms same => Ty.unionOfUnknown (Except.ok.inj same)
  cases e with
  | unknown => rfl
  | _ =>
    simp only [lower, bind, Except.bind] at lowers
    repeat' split at lowers
    all_goals simp_all

end Universe

/- A type that was found and names only such classes and references as it may. -/
structure Ty.Fits (class? : ClassId → Prop) (reference : RefId → Prop) (t : Ty) : Prop where
  known : t ≠ .missing
  classes : ∀ c, t.class? = some c → class? c
  references : ∀ r, t = .reference r → reference r

theorem Ty.Fits.imp {P P' : ClassId → Prop} {Q Q' : RefId → Prop} {t : Ty} (fits : t.Fits P Q)
    (wider : ∀ c, P c → P' c) (more : ∀ r, Q r → Q' r) : t.Fits P' Q' :=
  ⟨fits.known, fun c is => wider c (fits.classes c is), fun r is => more r (fits.references r is)⟩

namespace Universe

variable {u : Universe} {P : ClassId → Prop} {Q : RefId → Prop}

theorem requireClassIff {name : String} {c : ClassId} : u.requireClass name = .ok c ↔ u.class? name = some c := by
  unfold requireClass
  cases u.class? name <;> simp

theorem requireClassOk {name : String} {c : ClassId} (found : u.requireClass name = .ok c) :
    u.class? name = some c := requireClassIff.mp found

theorem requireAliasIff {name : String} {r : RefId} : u.requireAlias name = .ok r ↔ u.alias? name = some r := by
  unfold requireAlias
  cases u.alias? name <;> simp

theorem requireAliasOk {name : String} {r : RefId} (found : u.requireAlias name = .ok r) :
    u.alias? name = some r := requireAliasIff.mp found

/- A property of types that holds of the classes and references that are found, and that building types
keeps. -/
structure Builds (u : Universe) (M : Ty → Prop) : Prop where
  unknown : M .unknown
  nominal : ∀ name c, u.class? name = some c → M (.nominal (some c))
  reference : ∀ name r, u.alias? name = some r → M (.reference r)
  collection : ∀ name c t, u.class? name = some c → M t → M (.collection (some c) t)
  tuple : ∀ ts, (∀ t ∈ ts, M t) → M (.tuple (u.class? tupleClassName) ts)
  union : ∀ ts, (∀ t ∈ ts, M t) → M (Ty.unionOf ts)

section
variable {M : Ty → Prop}

mutual
theorem lowerBuilds (builds : u.Builds M) : ∀ (e : TypeExpr) {t : Ty}, u.lower e = .ok t → M t
  | .unknown, t, lowers => by
    cases lowers
    exact builds.unknown
  | .named name, t, lowers => by
    obtain ⟨c, found, last⟩ := boundOk lowers
    cases last
    exact builds.nominal name c (requireClassOk found)
  | .union members, t, lowers => by
    obtain ⟨ms, lowered, last⟩ := boundOk lowers
    cases last
    exact builds.union ms (lowerAllBuilds builds members lowered)
  | .tuple elements, t, lowers => by
    obtain ⟨es, lowered, last⟩ := boundOk lowers
    cases last
    exact builds.tuple es (lowerAllBuilds builds elements lowered)
  | .collection name element, t, lowers => by
    obtain ⟨c, found, rest⟩ := boundOk lowers
    obtain ⟨inner, lowered, last⟩ := boundOk rest
    cases last
    exact builds.collection name c inner (requireClassOk found) (lowerBuilds builds element lowered)
  | .aliased name, t, lowers => by
    obtain ⟨r, found, last⟩ := boundOk lowers
    cases last
    exact builds.reference name r (requireAliasOk found)

theorem lowerAllBuilds (builds : u.Builds M) :
    ∀ (es : List TypeExpr) {ts : List Ty}, u.lowerAll es = .ok ts → ∀ t ∈ ts, M t
  | [], ts, lowers => by
    cases lowers
    exact nofun
  | e :: rest, ts, lowers => by
    obtain ⟨head, first, more⟩ := boundOk lowers
    obtain ⟨tail, others, last⟩ := boundOk more
    cases last
    exact List.forall_mem_cons.mpr ⟨lowerBuilds builds e first, lowerAllBuilds builds rest others⟩
end

end

theorem partsBuild (classes : ∀ name c, u.class? name = some c → P c)
    (aliases : ∀ name r, u.alias? name = some r → Q r) : u.Builds (fun t => ∀ p : Ty, p.Part t → p.Fits P Q) where
  unknown p part := by
    cases part
    exact ⟨by simp, by simp [Ty.class?], by simp⟩
  nominal name c found p part := by
    cases part
    exact ⟨by simp, by simpa [Ty.class?] using classes name c found, by simp⟩
  reference name r found p part := by
    cases part
    exact ⟨by simp, by simp [Ty.class?], by simpa using aliases name r found⟩
  collection name c t found inside p part := by
    cases part with
    | whole => exact ⟨by simp, by simpa [Ty.class?] using classes name c found, by simp⟩
    | element _ part => exact inside p part
  tuple ts each p part := by
    cases part with
    | whole => exact ⟨by simp, fun c is => classes tupleClassName c is, by simp⟩
    | slot _ member part => exact each _ member p part
  union ts each p part := by
    rcases Ty.partUnionOf part with ⟨us, rfl⟩ | ⟨t, member, inside⟩
    · exact ⟨by simp, by simp [Ty.class?], by simp⟩
    · exact each t member p inside

theorem lowerParts (classes : ∀ name c, u.class? name = some c → P c)
    (aliases : ∀ name r, u.alias? name = some r → Q r) (e : TypeExpr) {t p : Ty} (lowers : u.lower e = .ok t)
    (part : p.Part t) : p.Fits P Q :=
  lowerBuilds (partsBuild classes aliases) e lowers p part

end Universe
end GradualTypes
