import GradualTypes.Proofs.NominalQueries

/-! Subclasses in place of their bases. What a class is accepted for by its bases or its members, all that
derive from it are accepted for as well. A name is not passed on: a class that is accepted only because it
is called like another one, or like a lower tier of the numeric tower, does not lend that to its
subclasses. -/
namespace GradualTypes

namespace Context

variable {x : Context} {p t : Ty} {b d : ClassId}

/- One of the types that an expected type stands for: the members of its unions at any depth, and what its
references resolve to. -/
inductive StandsFor (x : Context) : Ty → Ty → Prop where
  | unknown : StandsFor x .unknown .unknown
  | missing : StandsFor x .missing .missing
  | self {p : Ty} (classLike : p.isClassLike = true) : StandsFor x p p
  | member {m p : Ty} {ms : List Ty} (member : m ∈ ms) (inside : StandsFor x m p) : StandsFor x (.union ms) p
  | answer {r : RefId} {p : Ty} (inside : StandsFor x (x.resolver.answer r) p) : StandsFor x (.reference r) p

theorem StandsFor.leaf (stands : x.StandsFor t p) : p = .unknown ∨ p = .missing ∨ p.isClassLike = true := by
  induction stands with
  | unknown => exact .inl rfl
  | missing => exact .inr (.inl rfl)
  | self classLike => exact .inr (.inr classLike)
  | member member inside ih => exact ih
  | answer inside ih => exact ih

/- A class is accepted by a type exactly if it is by one of those the type stands for. -/
theorem matchStandsFor (settled : x.resolver.Settled) {a : Ty} (classLike : a.isClassLike = true) :
    x.isMatch t a = true ↔ ∃ p, x.StandsFor t p ∧ x.isMatch p a = true := by
  constructor
  · induction t using resolvedInduction settled with
    | unknown => exact fun matched => ⟨_, .unknown, matched⟩
    | missing => exact fun matched => ⟨_, .missing, matched⟩
    | reference r ih =>
      rw [matchReferenceLeft settled]
      intro matched
      obtain ⟨p, inside, accepts⟩ := ih matched
      exact ⟨p, .answer inside, accepts⟩
    | classLike t plain => exact fun matched => ⟨t, .self plain, matched⟩
    | union ms ih =>
      rw [matchUnionLeft settled ms classLike]
      rintro ⟨m, member, matched⟩
      obtain ⟨p, inside, accepts⟩ := ih m member matched
      exact ⟨p, .member member inside, accepts⟩
  · rintro ⟨p, stands, accepts⟩
    induction stands with
    | unknown | missing | self => exact accepts
    | member member inside ih => exact (matchUnionLeft settled _ classLike).mpr ⟨_, member, ih accepts⟩
    | answer inside ih =>
      rw [matchReferenceLeft settled]
      exact ih accepts

/- What a type accepts a class for together with all that derive from it: the type is that of `object`, or
nothing is known of its class or of its name, or its class is a base or a protocol that is satisfied. -/
def AcceptsDerived (x : Context) (p : Ty) (b : ClassId) : Prop :=
  x.isUniversal p.class? = true ∨ p.class?.bind x.classes.decl? = none ∨ p.name? x.classes = none ∨
    ∃ c, p.class? = some c ∧
      (x.graph.Path b c ∨ x.protocols.isStructuralSubclass x.classes x.graph b c = true)

/- The name of the class is that of the type or of its class, or is promoted to it. -/
def FitsByName (x : Context) (p : Ty) (b : ClassId) : Prop :=
  ∃ n, x.classes.name? b = some n ∧ (p.class?.bind x.classes.name? = some n ∨
    ∃ l, p.name? x.classes = some l ∧ (l = n ∨ NumericTier.promotes l n = true))

/- The type accepts `b` for its name and for nothing else, and the name of `d` does not do. -/
structure NameOnly (x : Context) (p : Ty) (b d : ClassId) : Prop where
  fits : x.FitsByName p b
  alone : ¬ x.AcceptsDerived p b
  misfits : ¬ x.FitsByName p d

theorem matchClass (settled : x.resolver.Settled) (classLike : p.isClassLike = true) (b : ClassId) :
    x.isMatch p (.nominal (some b)) = true ↔ x.isUniversal p.class? = true ∨
      x.classesCompatible p.class? (some b) = true ∨ (x.namesMatch p (.nominal (some b))).holds = true :=
  matchApart settled classLike rfl (by cases p <;> rfl)

theorem matchOfName (settled : x.resolver.Settled) (classLike : p.isClassLike = true) (fits : x.FitsByName p b) :
    x.isMatch p (.nominal (some b)) = true := by
  rw [matchClass settled classLike]
  obtain ⟨n, named, same | ⟨l, label, fits⟩⟩ := fits
  · obtain ⟨c, is, sup⟩ := Option.bind_eq_some_iff.mp same
    exact .inr (.inl (is ▸ (compatibleNamed sup named).mpr (.inr (.inr rfl))))
  · right
    right
    simpa [namesMatch, label, Ty.name?, named] using fits

theorem matchOfBase (settled : x.resolver.Settled) (classLike : p.isClassLike = true) (path : x.graph.Path d b)
    (accepts : x.AcceptsDerived p b) : x.isMatch p (.nominal (some d)) = true := by
  rw [matchClass settled classLike]
  rcases accepts with universal | absent | nameless | ⟨c, is, way | structural⟩
  · exact .inl universal
  · right
    left
    cases is : p.class? with
    | none => simp [classesCompatible]
    | some c => exact compatibleIff.mpr (.inl (by simpa [is] using absent))
  · right
    right
    simp [namesMatch, nameless, Verdict.yes]
  · exact .inr (.inl (is ▸ compatibleIff.mpr (.inr (.inr (.inl (path.trans way))))))
  · have inherited := ProtocolRegistry.structuralInherited path structural
    exact .inr (.inl (is ▸ compatibleIff.mpr (.inr (.inr (.inr (.inl inherited))))))

/- There is nothing else to accept a class for. -/
theorem acceptedFor (settled : x.resolver.Settled) (classLike : p.isClassLike = true) {n : String}
    (named : x.classes.name? b = some n) (accepts : x.isMatch p (.nominal (some b)) = true) :
    x.AcceptsDerived p b ∨ x.FitsByName p b := by
  rcases (matchClass settled classLike b).mp accepts with universal | compatible | label
  · exact .inl (.inl universal)
  · cases is : p.class? with
    | none => exact .inl (.inr (.inl (by simp [is])))
    | some c =>
      rw [is, compatibleIff] at compatible
      rcases compatible with absent | absent | way | structural | ⟨n, sub, sup⟩
      · exact .inl (.inr (.inl (by simpa [is] using absent)))
      · simp [ClassTable.name?, absent] at named
      · exact .inl (.inr (.inr (.inr ⟨c, is, .inl way⟩)))
      · exact .inl (.inr (.inr (.inr ⟨c, is, .inr structural⟩)))
      · exact .inr ⟨n, sub, .inl (by simpa [is] using sup)⟩
  · cases called : p.name? x.classes with
    | none => exact .inl (.inr (.inr (.inl called)))
    | some l =>
      refine .inr ⟨n, named, .inr ⟨l, called, ?_⟩⟩
      simpa [namesMatch, called, Ty.name?, named] using label

theorem lostByName (settled : x.resolver.Settled) (classLike : p.isClassLike = true) {n : String}
    (named : x.classes.name? b = some n) (path : x.graph.Path d b)
    (accepts : x.isMatch p (.nominal (some b)) = true) (refuses : ¬ x.isMatch p (.nominal (some d)) = true) :
    x.NameOnly p b d := by
  have alone : ¬ x.AcceptsDerived p b := fun grounds => refuses (matchOfBase settled classLike path grounds)
  have misfits : ¬ x.FitsByName p d := fun fits => refuses (matchOfName settled classLike fits)
  exact ⟨(acceptedFor settled classLike named accepts).resolve_left alone, alone, misfits⟩

/- Among the types that `t` stands for some accept `b`, all of them for its name only. -/
structure HangsOnName (x : Context) (t : Ty) (b d : ClassId) : Prop where
  accepted : ∃ p, x.StandsFor t p ∧ x.isMatch p (.nominal (some b)) = true
  byName : ∀ p, x.StandsFor t p → x.isMatch p (.nominal (some b)) = true → x.NameOnly p b d

theorem matchDerived (settled : x.resolver.Settled) {n : String} (named : x.classes.name? b = some n)
    (path : x.graph.Path d b) (accepts : x.isMatch t (.nominal (some b)) = true) :
    x.isMatch t (.nominal (some d)) = true ∨ x.HangsOnName t b d := by
  refine or_iff_not_imp_left.mpr fun refuses => ⟨(matchStandsFor settled rfl).mp accepts, ?_⟩
  intro p stands accepts
  have refused : ¬ x.isMatch p (.nominal (some d)) = true :=
    fun matched => refuses ((matchStandsFor settled rfl).mpr ⟨p, stands, matched⟩)
  rcases stands.leaf with rfl | rfl | classLike
  · exact absurd (matchUnknownLeft settled _) refused
  · exact absurd (matchMissingLeft settled _) refused
  · exact lostByName settled classLike named path accepts refused

end Context

namespace Universe

variable {u : Universe}

/-- A class that derives from another is accepted wherever that one is, unless the other is accepted for
its name alone: whatever the expected type stands for and accepts it is neither `object` nor a base of it nor
a protocol that it satisfies, and fits its name, but not the name of the class that derives from it. -/
theorem derivedAccepted (reached : u.Reached) {base derived : String} {b d : ClassId}
    (found : u.class? base = some b) (found' : u.class? derived = some d)
    (inherits : u.graph.isDerivedFrom d b = true) {expected : TypeExpr} {t : Ty}
    (lowers : u.lower expected = .ok t) (accepted : u.isMatch expected (.named base) = .ok true) :
    u.isMatch expected (.named derived) = .ok true ∨ u.context.HangsOnName t b d := by
  obtain ⟨stubs, consistent⟩ := reachedConsistent reached
  obtain ⟨n, named⟩ := foundNamed consistent found
  rw [matchLowered lowers (lowerNamed found), Except.ok.injEq] at accepted
  rw [matchLowered lowers (lowerNamed found'), Except.ok.injEq]
  exact Context.matchDerived u.contextSettled named (InheritanceGraph.derivedIff.mp inherits) accepted

/- `Count` derives from `int`, and `Crate` from the second of two classes called `Box`. -/
def goods : Manifest :=
  ⟨[⟨"Count", none, ["int"], []⟩, ⟨"Box", some "shop", [], []⟩, ⟨"Box", some "port", [], []⟩,
    ⟨"Crate", none, ["port.Box"], []⟩], [], .empty⟩

def withGoods : Universe := (withBuiltins.install goods).1

theorem goodsReached : withGoods.Reached := .install builtinsReached goods

/- A `Count` is hashable like an `int`, and it is no `float`. -/
theorem countsAccepted :
    (withGoods.isMatch (.union [.named "float", .named "Hashable"]) (.named "Count") = .ok true ∨
      withGoods.context.HangsOnName (.union [.nominal (some 7), .nominal (some 19)]) 5 27) ∧
    (withGoods.isMatch (.named "float") (.named "Count") = .ok true ∨
      withGoods.context.HangsOnName (.nominal (some 7)) 5 27) := by
  obtain ⟨⟨int, count, inherits⟩, ⟨float, promoted⟩, either, hashed⟩ :
      (withGoods.class? "int" = some 5 ∧ withGoods.class? "Count" = some 27 ∧
        withGoods.graph.isDerivedFrom 27 5 = true) ∧
      (withGoods.lower (.named "float") = .ok (.nominal (some 7)) ∧
        withGoods.isMatch (.named "float") (.named "int") = .ok true) ∧
      withGoods.lower (.union [.named "float", .named "Hashable"]) =
          .ok (.union [.nominal (some 7), .nominal (some 19)]) ∧
        withGoods.isMatch (.union [.named "float", .named "Hashable"]) (.named "int") = .ok true := by
    decide +kernel
  exact ⟨derivedAccepted goodsReached int count inherits either hashed,
    derivedAccepted goodsReached int count inherits float promoted⟩

/- An `int` passes for a `float`, and a `Box` of one module for a `Box` of the other. A `Count`, which
derives from `int`, and a `Crate`, which derives from the second `Box`, do not. -/
theorem namesNotInherited : withGoods.Reached ∧
    (withGoods.class? "int" = some 5 ∧ withGoods.class? "Count" = some 27 ∧
      withGoods.graph.isDerivedFrom 27 5 = true ∧
      withGoods.isMatch (.named "float") (.named "int") = .ok true ∧
      withGoods.isMatch (.named "float") (.named "Count") = .ok false) ∧
    withGoods.class? "port.Box" = some 29 ∧ withGoods.class? "Crate" = some 30 ∧
      withGoods.graph.isDerivedFrom 30 29 = true ∧
      withGoods.isMatch (.named "shop.Box") (.named "port.Box") = .ok true ∧
      withGoods.isMatch (.named "shop.Box") (.named "Crate") = .ok false :=
  ⟨goodsReached, by decide +kernel⟩

end Universe
end GradualTypes
