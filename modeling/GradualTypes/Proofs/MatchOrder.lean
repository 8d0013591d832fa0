import GradualTypes.Proofs.MatchRules

/-! Two orders on types, by what a match says of them: a type is wider than another if it accepts all
that the other accepts, and looser if it is accepted wherever the other is. Building types keeps both
orders. A union as the actual type is looked at for a member that is unknown, so the second order holds on
to that. -/
namespace GradualTypes.Context

variable {x : Context}

/- Induction that goes on from a reference to what it resolves to. It ends because no answer holds another
reference. -/
theorem answerInduction (settled : x.resolver.Settled) {P : Ty → Prop} (unknown : P .unknown)
    (missing : P .missing) (reference : ∀ r, P (x.resolver.answer r) → P (.reference r))
    (nominal : ∀ c, P (.nominal c)) (collection : ∀ c element, P element → P (.collection c element))
    (tuple : ∀ c elements, (∀ e ∈ elements, P e) → P (.tuple c elements))
    (union : ∀ ms, (∀ m ∈ ms, P m) → P (.union ms)) (t : Ty) : P t := by
  have ground : ∀ t : Ty, t.isGround = true → P t := by
    intro t
    induction t with
    | unknown => exact fun _ => unknown
    | missing => exact fun _ => missing
    | reference r => simp [Ty.isGround]
    | nominal c => exact fun _ => nominal c
    | collection c element ih => exact fun h => collection c element (ih h)
    | tuple c es ih => exact fun h => tuple c es (fun e member => ih e member (Ty.allGroundIff.mp h e member))
    | union ms ih => exact fun h => union ms (fun m member => ih m member (Ty.allGroundIff.mp h m member))
  induction t with
  | unknown => exact unknown
  | missing => exact missing
  | reference r => exact reference r (ground _ (settled.ground r))
  | nominal c => exact nominal c
  | collection c element ih => exact collection c element ih
  | tuple c es ih => exact tuple c es ih
  | union ms ih => exact union ms ih

/- What holds of the types of classes, and is passed on to references by their answers and to unions by
their members, holds of all types. -/
theorem resolvedInduction (settled : x.resolver.Settled) {P : Ty → Prop} (unknown : P .unknown)
    (missing : P .missing) (reference : ∀ r, P (x.resolver.answer r) → P (.reference r))
    (classLike : ∀ t, t.isClassLike = true → P t)
    (union : ∀ ms, (∀ m ∈ ms, P m) → P (.union ms)) (t : Ty) : P t :=
  answerInduction settled unknown missing reference (fun _ => classLike _ rfl) (fun _ _ _ => classLike _ rfl)
    (fun _ _ _ => classLike _ rfl) union t

theorem matchUnionOfRight (settled : x.resolver.Settled) (e : Ty) (ms : List Ty) :
    x.isMatch e (Ty.unionOf ms) = true ↔ .unknown ∈ ms ∨ ∀ m ∈ ms, x.isMatch e m = true := by
  rcases Ty.unionOfCases ms with node | ⟨only, single, known, same⟩
  · simp [node, matchUnionRight settled]
  · have members : ∀ m, m ∈ ms ↔ m = only := fun m => by rw [← Ty.memCanonical, single]; simp
    simp [same, members, known.symm]

theorem matchUnionOfLeft (settled : x.resolver.Settled) (ms : List Ty) {a : Ty}
    (classLike : a.isClassLike = true) :
    x.isMatch (Ty.unionOf ms) a = true ↔ ∃ m ∈ ms, x.isMatch m a = true := by
  rcases Ty.unionOfCases ms with node | ⟨only, single, -, same⟩
  · simp [node, matchUnionLeft settled _ classLike]
  · have members : ∀ m, m ∈ ms ↔ m = only := fun m => by rw [← Ty.memCanonical, single]; simp
    simp [same, members]

/- Against a class that is no tuple, a tuple is decided by its class alone. -/
theorem matchTupleLeft (settled : x.resolver.Settled) (plain : x.classes.NoTupleNames)
    (c : Option ClassId) (es : List Ty) {a : Ty} (classLike : a.isClassLike = true)
    (apart : paired (.tuple c es) a = false) :
    x.isMatch (.tuple c es) a = true ↔ x.isUniversal c = true ∨
      x.classesCompatible c a.class? = true ∨ a.class?.bind x.classes.name? = none := by
  have names : (x.namesMatch (.tuple c es) a).holds = true ↔ a.class?.bind x.classes.name? = none := by
    have called : a.name? x.classes = a.class?.bind x.classes.name? := by
      cases a <;> simp_all [Ty.isClassLike, paired, Ty.name?, Ty.class?]
    rw [namesMatch, called, Ty.name?, String.append_assoc]
    cases named : a.class?.bind x.classes.name? with
    | none => simp [Verdict.yes]
    | some n =>
      obtain ⟨d, -, declared⟩ := Option.bind_eq_some_iff.mp named
      obtain ⟨different, promoted, -⟩ := tupleNamesApart plain
        (Ty.joinLabels ", " (Ty.labels x.classes es) ++ ")") declared
      simp [different, promoted]
  rw [matchApart settled rfl classLike apart, names]
  rfl

theorem matchTupleRight (settled : x.resolver.Settled) (plain : x.classes.NoTupleNames)
    (d : Option ClassId) (as : List Ty) {e : Ty} (classLike : e.isClassLike = true)
    (apart : paired e (.tuple d as) = false) :
    x.isMatch e (.tuple d as) = true ↔ x.isUniversal e.class? = true ∨
      x.classesCompatible e.class? d = true ∨ e.class?.bind x.classes.name? = none := by
  have names : (x.namesMatch e (.tuple d as)).holds = true ↔ e.class?.bind x.classes.name? = none := by
    have called : e.name? x.classes = e.class?.bind x.classes.name? := by
      cases e <;> simp_all [Ty.isClassLike, paired, Ty.name?, Ty.class?]
    rw [namesMatch, called, Ty.name?, String.append_assoc]
    cases named : e.class?.bind x.classes.name? with
    | none => simp [Verdict.yes]
    | some n =>
      obtain ⟨c, -, declared⟩ := Option.bind_eq_some_iff.mp named
      obtain ⟨different, -, promoted⟩ := tupleNamesApart plain
        (Ty.joinLabels ", " (Ty.labels x.classes as) ++ ")") declared
      simp [different.symm, promoted]
  rw [matchApart settled classLike rfl apart, names]
  rfl

/- `e'` accepts all that `e` accepts. -/
def Wider (x : Context) (e e' : Ty) : Prop := ∀ a, x.isMatch e a = true → x.isMatch e' a = true

/- `a'` is accepted wherever `a` is. -/
def Accepted (x : Context) (a a' : Ty) : Prop := ∀ e, x.isMatch e a = true → x.isMatch e a' = true

/- Beyond that, a union does not lose an unknown member when `a'` takes the place of `a` in it. -/
structure Looser (x : Context) (a a' : Ty) : Prop where
  unknown : a = .unknown → a' = .unknown
  accepted : x.Accepted a a'

theorem widerRefl (x : Context) (e : Ty) : x.Wider e e := fun _ h => h

theorem looserRefl (x : Context) (a : Ty) : x.Looser a a := ⟨fun h => h, fun _ h => h⟩

theorem widerTrans {e e' e'' : Ty} (first : x.Wider e e') (second : x.Wider e' e'') : x.Wider e e'' :=
  fun a h => second a (first a h)

theorem looserTrans {a a' a'' : Ty} (first : x.Looser a a') (second : x.Looser a' a'') : x.Looser a a'' :=
  ⟨fun h => second.unknown (first.unknown h), fun e h => second.accepted e (first.accepted e h)⟩

theorem widerUnknown (settled : x.resolver.Settled) (e : Ty) : x.Wider e .unknown :=
  fun a _ => matchUnknownLeft settled a

theorem looserUnknown (settled : x.resolver.Settled) (a : Ty) : x.Looser a .unknown :=
  ⟨fun _ => rfl, fun e _ => matchUnknownRight settled e⟩

theorem widerOfClassLike (settled : x.resolver.Settled) {e e' : Ty}
    (wider : ∀ a, a.isClassLike = true → x.isMatch e a = true → x.isMatch e' a = true) :
    x.Wider e e' := by
  intro a
  induction a using resolvedInduction settled with
  | unknown => exact fun _ => matchUnknownRight settled e'
  | missing => exact fun _ => matchMissingRight settled e'
  | reference r ih => simpa only [matchReferenceRight settled] using ih
  | classLike a classLike => exact wider a classLike
  | union ms ih =>
    simp only [matchUnionRight settled]
    rintro (hole | each)
    · exact .inl hole
    · exact .inr (fun m member => ih m member (each m member))

theorem looserOfClassLike (settled : x.resolver.Settled) {a a' : Ty} (left : a.isClassLike = true)
    (right : a'.isClassLike = true)
    (looser : ∀ e, e.isClassLike = true → x.isMatch e a = true → x.isMatch e a' = true) :
    x.Looser a a' := by
  refine ⟨?_, ?_⟩
  · rintro rfl
    simp [Ty.isClassLike] at left
  · intro e
    induction e using resolvedInduction settled with
    | unknown => exact fun _ => matchUnknownLeft settled a'
    | missing => exact fun _ => matchMissingLeft settled a'
    | reference r ih => simpa only [matchReferenceLeft settled] using ih
    | classLike e classLike => exact looser e classLike
    | union ms ih =>
      rw [matchUnionLeft settled ms left, matchUnionLeft settled ms right]
      rintro ⟨m, member, accepts⟩
      exact ⟨m, member, ih m member accepts⟩

theorem widerUnion (settled : x.resolver.Settled) {es es' : List Ty}
    (wider : List.Forall₂ x.Wider es es') : x.Wider (Ty.unionOf es) (Ty.unionOf es') := by
  apply widerOfClassLike settled
  intro a classLike
  rw [matchUnionOfLeft settled es classLike, matchUnionOfLeft settled es' classLike]
  induction wider with
  | nil => exact fun h => h
  | cons head tail ih =>
    simp only [List.exists_mem_cons_iff]
    exact Or.imp (head a) ih

theorem looserUnion (settled : x.resolver.Settled) {as as' : List Ty}
    (looser : List.Forall₂ x.Looser as as') : x.Looser (Ty.unionOf as) (Ty.unionOf as') := by
  refine ⟨fun h => absurd h Ty.unionOfUnknown, ?_⟩
  intro e
  rw [matchUnionOfRight settled, matchUnionOfRight settled]
  apply Or.imp
  · induction looser with
    | nil => exact fun h => h
    | cons head tail ih =>
      simp only [List.mem_cons]
      exact Or.imp (fun h => (head.unknown h.symm).symm) ih
  · induction looser with
    | nil => exact fun h => h
    | cons head tail ih =>
      simp only [List.forall_mem_cons]
      exact And.imp (head.accepted e) ih

/- A union that is built is its members' union, also where it is built from one member alone. -/
theorem widerNode (settled : x.resolver.Settled) (ms : List Ty) :
    x.Wider (.union ms) (Ty.unionOf ms) ∧ x.Wider (Ty.unionOf ms) (.union ms) := by
  constructor
  all_goals
    apply widerOfClassLike settled
    intro a classLike
    rw [matchUnionOfLeft settled ms classLike, matchUnionLeft settled ms classLike]
    exact fun h => h

theorem looserNode (settled : x.resolver.Settled) (ms : List Ty) : x.Looser (.union ms) (Ty.unionOf ms) := by
  refine ⟨nofun, ?_⟩
  intro e
  rw [matchUnionOfRight settled, matchUnionRight settled]
  exact fun h => h

/- A collection is called after its class, whatever its elements are. -/
theorem matchCollectionApart (settled : x.resolver.Settled) (c : Option ClassId) (e : Ty) {a : Ty}
    (classLike : a.isClassLike = true) (apart : paired (.collection c e) a = false) :
    x.isMatch (.collection c e) a = x.isMatch (.nominal c) a := by
  rw [Bool.eq_iff_iff, matchApart settled rfl classLike apart,
    matchApart settled rfl classLike (by cases a <;> rfl)]
  rfl

theorem matchApartCollection (settled : x.resolver.Settled) (d : Option ClassId) (a : Ty) {e : Ty}
    (classLike : e.isClassLike = true) (apart : paired e (.collection d a) = false) :
    x.isMatch e (.collection d a) = x.isMatch e (.nominal d) := by
  rw [Bool.eq_iff_iff, matchApart settled classLike rfl apart,
    matchApart settled classLike rfl (by cases e <;> rfl)]
  cases e <;> rfl

theorem widerCollection (settled : x.resolver.Settled) (c : Option ClassId) {e e' : Ty}
    (wider : x.Wider e e') : x.Wider (.collection c e) (.collection c e') := by
  apply widerOfClassLike settled
  intro a classLike
  cases a with
  | collection d a =>
    rw [matchCollections settled, matchCollections settled]
    exact Or.imp id (And.imp id (wider a))
  | unknown | missing | reference | union => simp [Ty.isClassLike] at classLike
  | nominal | tuple =>
    rw [matchCollectionApart settled c e rfl rfl, matchCollectionApart settled c e' rfl rfl]
    exact fun h => h

theorem looserCollection (settled : x.resolver.Settled) (d : Option ClassId) {a a' : Ty}
    (accepted : x.Accepted a a') : x.Looser (.collection d a) (.collection d a') := by
  apply looserOfClassLike settled rfl rfl
  intro e classLike
  cases e with
  | collection c e =>
    rw [matchCollections settled, matchCollections settled]
    exact Or.imp id (And.imp id (accepted e))
  | unknown | missing | reference | union => simp [Ty.isClassLike] at classLike
  | nominal | tuple =>
    rw [matchApartCollection settled d a rfl rfl, matchApartCollection settled d a' rfl rfl]
    exact fun h => h

/- A class by itself says nothing of elements. -/
theorem widerNominal (settled : x.resolver.Settled) (c : Option ClassId) (e : Ty) :
    x.Wider (.collection c e) (.nominal c) := by
  apply widerOfClassLike settled
  intro a classLike
  cases a with
  | collection d a =>
    rw [matchCollections settled, matchApart (e := .nominal c) (a := .collection d a) settled rfl rfl rfl]
    exact Or.imp id (fun h => .inl h.1)
  | unknown | missing | reference | union => simp [Ty.isClassLike] at classLike
  | nominal | tuple =>
    rw [matchCollectionApart settled c e rfl rfl]
    exact fun h => h

theorem looserNominal (settled : x.resolver.Settled) (d : Option ClassId) (a : Ty) :
    x.Looser (.collection d a) (.nominal d) := by
  apply looserOfClassLike settled rfl rfl
  intro e classLike
  cases e with
  | collection c e =>
    rw [matchCollections settled, matchApart (e := .collection c e) (a := .nominal d) settled rfl rfl rfl]
    exact Or.imp id (fun h => .inl h.1)
  | unknown | missing | reference | union => simp [Ty.isClassLike] at classLike
  | nominal | tuple =>
    rw [matchApartCollection settled d a rfl rfl]
    exact fun h => h

theorem eachWider {es es' as : List Ty} (wider : List.Forall₂ x.Wider es es')
    (each : List.Forall₂ (fun e a => x.isMatch e a = true) es as) :
    List.Forall₂ (fun e a => x.isMatch e a = true) es' as := by
  induction wider generalizing as with
  | nil => exact each
  | cons head tail ih =>
    cases each with
    | cons matched rest => exact .cons (head _ matched) (ih rest)

theorem eachAccepted {es as as' : List Ty} (accepted : List.Forall₂ x.Accepted as as')
    (each : List.Forall₂ (fun e a => x.isMatch e a = true) es as) :
    List.Forall₂ (fun e a => x.isMatch e a = true) es as' := by
  induction accepted generalizing es with
  | nil => exact each
  | cons head tail ih =>
    cases each with
    | cons matched rest => exact .cons (head _ matched) (ih rest)

theorem widerTuple (settled : x.resolver.Settled) (plain : x.classes.NoTupleNames) (c : Option ClassId)
    {es es' : List Ty} (wider : List.Forall₂ x.Wider es es') :
    x.Wider (.tuple c es) (.tuple c es') := by
  apply widerOfClassLike settled
  intro a classLike
  cases a with
  | tuple d as =>
    rw [matchTuples settled, matchTuples settled]
    exact Or.imp id (eachWider wider)
  | unknown | missing | reference | union => simp [Ty.isClassLike] at classLike
  | nominal | collection =>
    rw [matchTupleLeft settled plain c es rfl rfl, matchTupleLeft settled plain c es' rfl rfl]
    exact fun h => h

theorem looserTuple (settled : x.resolver.Settled) (plain : x.classes.NoTupleNames) (d : Option ClassId)
    {as as' : List Ty} (accepted : List.Forall₂ x.Accepted as as') :
    x.Looser (.tuple d as) (.tuple d as') := by
  apply looserOfClassLike settled rfl rfl
  intro e classLike
  cases e with
  | tuple c es =>
    rw [matchTuples settled, matchTuples settled]
    exact Or.imp id (eachAccepted accepted)
  | unknown | missing | reference | union => simp [Ty.isClassLike] at classLike
  | nominal | collection =>
    rw [matchTupleRight settled plain d as rfl rfl, matchTupleRight settled plain d as' rfl rfl]
    exact fun h => h

end GradualTypes.Context
