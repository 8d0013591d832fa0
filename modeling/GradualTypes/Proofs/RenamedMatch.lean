import GradualTypes.Proofs.NominalQueries
import GradualTypes.Proofs.Renaming

/-! Matching under other ids. Where two contexts say the same of all classes and references up to a renaming,
they decide renamed types alike: each rule asks for declarations, paths of bases, members and names, none of
which depends on an id, and takes unions member by member, so that their order does not count. -/
namespace GradualTypes

/- What leads from one class to another leads there by the new ids too. -/
theorem walksRenamed {R S : ClassId → ClassId → Prop} (ids : Equiv.Perm ClassId)
    (same : ∀ c b, S (ids c) (ids b) ↔ R c b) {c a : ClassId} :
    Relation.TransGen S (ids c) (ids a) ↔ Relation.TransGen R c a := by
  constructor
  · intro walk
    have back : ∀ c b, S c b → R (ids.symm c) (ids.symm b) := fun c b step => (same _ _).mp (by simpa using step)
    simpa [Function.onFun] using Relation.TransGen.lift ids.symm back _ _ walk
  · exact Relation.TransGen.lift ids (fun c b step => (same c b).mpr step) _ _

namespace Ty

variable {n : Renaming} {t : Ty}

theorem renameClassLike (classLike : t.isClassLike = true) : (t.rename n).isClassLike = true := by
  cases t <;> simp_all [isClassLike, rename]

end Ty

namespace Context

/- The second context says of the renamed classes and references what the first one says. -/
structure Renames (x y : Context) (n : Renaming) : Prop where
  decls : ∀ c, y.classes.decl? (n.classes c) = x.classes.decl? c
  bases : ∀ c b, y.graph.HasBase (n.classes c) (n.classes b) ↔ x.graph.HasBase c b
  protocols : y.protocols = x.protocols
  answers : ∀ r, y.resolver.answer (n.references r) = (x.resolver.answer r).rename n

variable {x y : Context} {n : Renaming} {b c : ClassId}

theorem renamedName (renames : x.Renames y n) (c : ClassId) :
    y.classes.name? (n.classes c) = x.classes.name? c := by
  rw [ClassTable.name?, ClassTable.name?, renames.decls]

theorem renamedNames (renames : x.Renames y n) (c : Option ClassId) :
    (c.map n.classes).bind y.classes.name? = c.bind x.classes.name? := by
  cases c with
  | none => rfl
  | some c => exact renamedName renames c

theorem renamedPlain (renames : x.Renames y n) (plain : x.classes.NoTupleNames) : y.classes.NoTupleNames := by
  intro d member name named
  obtain ⟨i, at'⟩ := List.mem_iff_getElem?.mp member
  have there : y.classes.decl? (i + 1) = some d := at'
  have here : x.classes.decl? (n.classes.symm (i + 1)) = some d := by
    rw [← renames.decls, Equiv.apply_symm_apply, there]
  have calledHere : x.classes.name? (n.classes.symm (i + 1)) = some name := by
    rw [ClassTable.name?, here]
    exact named
  obtain ⟨d', declared, called⟩ := ClassTable.nameDeclared calledHere
  exact plain d' declared name called

theorem renamedPath (renames : x.Renames y n) :
    y.graph.Path (n.classes b) (n.classes c) ↔ x.graph.Path b c := by
  rw [InheritanceGraph.Path, InheritanceGraph.Path, Relation.reflTransGen_iff_eq_or_transGen,
    Relation.reflTransGen_iff_eq_or_transGen, walksRenamed n.classes renames.bases, n.classes.apply_eq_iff_eq]

theorem renamedMember (renames : x.Renames y n) (member : String) :
    ProtocolRegistry.HasMember y.classes y.graph (n.classes c) member ↔
      ProtocolRegistry.HasMember x.classes x.graph c member := by
  rw [ProtocolRegistry.HasMember, ← n.classes.exists_congr_right]
  simp only [renamedPath renames, renames.decls]
  rfl

theorem renamedStructure (renames : x.Renames y n) :
    y.protocols.isStructuralSubclass y.classes y.graph (n.classes b) (n.classes c) =
      x.protocols.isStructuralSubclass x.classes x.graph b c := by
  rw [ProtocolRegistry.isStructuralSubclass, ProtocolRegistry.isStructuralSubclass, renamedName renames]
  cases x.classes.name? c with
  | none => rfl
  | some name =>
    refine Bool.eq_iff_iff.mpr ?_
    simp only [ProtocolRegistry.satisfiesIff, renames.protocols, renamedMember renames]

theorem renamedCompatible (renames : x.Renames y n) (c d : Option ClassId) :
    y.classesCompatible (c.map n.classes) (d.map n.classes) = x.classesCompatible c d := by
  cases c with
  | none => rfl
  | some c =>
    cases d with
    | none => rfl
    | some d =>
      rw [Bool.eq_iff_iff, Option.map_some, Option.map_some, compatibleIff, compatibleIff, renames.decls,
        renames.decls, renamedPath renames, renamedStructure renames, renamedName renames, renamedName renames]

theorem renamedUniversal (renames : x.Renames y n) (c : Option ClassId) :
    y.isUniversal (c.map n.classes) = x.isUniversal c := by
  rw [isUniversal, isUniversal, renamedNames renames]

/- Actual types are taken apart alike. -/
theorem renamedOfClassLike (renames : x.Renames y n) (left : x.resolver.Settled) (right : y.resolver.Settled)
    {e : Ty} (same : ∀ a, a.isClassLike = true → y.isMatch (e.rename n) (a.rename n) = x.isMatch e a) (a : Ty) :
    y.isMatch (e.rename n) (a.rename n) = x.isMatch e a := by
  induction a using resolvedInduction left with
  | unknown => rw [Ty.rename, matchUnknownRight left, matchUnknownRight right]
  | missing => rw [Ty.rename, matchMissingRight left, matchMissingRight right]
  | reference r ih => rw [Ty.rename, matchReferenceRight left, matchReferenceRight right, renames.answers, ih]
  | classLike a classLike => exact same a classLike
  | union ms ih =>
    have hole : .unknown ∈ ms.map (Ty.rename n) ↔ .unknown ∈ ms := by simp [Ty.renameUnknown]
    rw [Bool.eq_iff_iff, Ty.rename, Ty.renameAllMap, matchUnionOfRight right, matchUnionRight left, hole,
      List.forall_mem_map]
    exact or_congr_right (forall₂_congr fun m member => by rw [ih m member])

/- Of an expected class only declarations, bases and names are looked at. -/
theorem renamedNominal (renames : x.Renames y n) (left : x.resolver.Settled) (right : y.resolver.Settled)
    (plain : x.classes.NoTupleNames) (c : Option ClassId) {a : Ty} (classLike : a.isClassLike = true) :
    y.isMatch (.nominal (c.map n.classes)) (a.rename n) = x.isMatch (.nominal c) a := by
  have nominals : ∀ d : Option ClassId, y.isMatch (.nominal (c.map n.classes)) (.nominal (d.map n.classes)) =
      x.isMatch (.nominal c) (.nominal d) := by
    intro d
    have names : y.namesMatch (.nominal (c.map n.classes)) (.nominal (d.map n.classes)) =
        x.namesMatch (.nominal c) (.nominal d) := by
      simp only [namesMatch, Ty.name?, renamedNames renames]
    rw [Bool.eq_iff_iff, matchApart left rfl rfl rfl, matchApart right rfl rfl rfl, names]
    simp only [Ty.class?, renamedUniversal renames, renamedCompatible renames]
  cases a with
  | unknown | missing | reference | union => simp [Ty.isClassLike] at classLike
  | nominal d => exact nominals d
  | collection d a =>
    rw [Ty.rename, matchApartCollection left d a rfl rfl, matchApartCollection right _ _ rfl rfl, nominals]
  | tuple d as =>
    rw [Bool.eq_iff_iff, Ty.rename, matchTupleRight left plain d as rfl rfl,
      matchTupleRight right (renamedPlain renames plain) _ _ rfl rfl]
    simp only [Ty.class?, renamedUniversal renames, renamedCompatible renames, renamedNames renames]

theorem renamedTuples {es as : List Ty}
    (each : ∀ e ∈ es, ∀ a, y.isMatch (e.rename n) (a.rename n) = x.isMatch e a) :
    List.Forall₂ (fun e a => y.isMatch e a = true) (es.map (Ty.rename n)) (as.map (Ty.rename n)) ↔
      List.Forall₂ (fun e a => x.isMatch e a = true) es as := by
  rw [List.forall₂_map_left_iff, List.forall₂_map_right_iff, List.forall₂_iff_zip, List.forall₂_iff_zip]
  refine and_congr_right fun arity => forall₃_congr fun e a member => ?_
  rw [each e (List.of_mem_zip member).1]

/-- Where two contexts say the same up to a renaming, they decide all types alike, each in its own ids. -/
theorem renamedMatch (renames : x.Renames y n) (left : x.resolver.Settled) (right : y.resolver.Settled)
    (plain : x.classes.NoTupleNames) (e a : Ty) : y.isMatch (e.rename n) (a.rename n) = x.isMatch e a := by
  induction e using answerInduction left generalizing a with
  | unknown => rw [Ty.rename, matchUnknownLeft left, matchUnknownLeft right]
  | missing => rw [Ty.rename, matchMissingLeft left, matchMissingLeft right]
  | reference r ih => rw [Ty.rename, matchReferenceLeft left, matchReferenceLeft right, renames.answers, ih]
  | nominal c => exact renamedOfClassLike renames left right (fun _ => renamedNominal renames left right plain c) a
  | collection c e ih =>
    refine renamedOfClassLike renames left right (fun a classLike => ?_) a
    cases a with
    | unknown | missing | reference | union => simp [Ty.isClassLike] at classLike
    | collection d a =>
      rw [Bool.eq_iff_iff, Ty.rename, Ty.rename, matchCollections left, matchCollections right,
        renamedUniversal renames, renamedCompatible renames, ih]
    | nominal | tuple =>
      rw [matchCollectionApart left c e rfl rfl, ← renamedNominal renames left right plain c rfl]
      exact matchCollectionApart right (c.map n.classes) (e.rename n) rfl rfl
  | tuple c es ih =>
    refine renamedOfClassLike renames left right (fun a classLike => ?_) a
    cases a with
    | unknown | missing | reference | union => simp [Ty.isClassLike] at classLike
    | tuple d as =>
      rw [Bool.eq_iff_iff, Ty.rename, Ty.rename, Ty.renameAllMap, Ty.renameAllMap, matchTuples left,
        matchTuples right, renamedUniversal renames, renamedTuples ih]
    | nominal | collection =>
      rw [Bool.eq_iff_iff, Ty.rename, Ty.rename, matchTupleLeft left plain c es rfl rfl,
        matchTupleLeft right (renamedPlain renames plain) _ _ rfl rfl]
      simp only [Ty.class?, renamedUniversal renames, renamedCompatible renames, renamedNames renames]
  | union ms ih =>
    refine renamedOfClassLike renames left right (fun a classLike => ?_) a
    rw [Bool.eq_iff_iff, Ty.rename, Ty.renameAllMap, matchUnionOfLeft right _ (Ty.renameClassLike classLike),
      matchUnionLeft left _ classLike]
    simp only [List.mem_map, exists_exists_and_eq_and]
    exact exists_congr fun m => and_congr_right fun member => by rw [ih m member]

end Context

namespace Universe

/- The second universe finds under every name what the first one finds, renamed, and says the same of it. -/
structure Renames (u v : Universe) (n : Renaming) : Prop where
  classes : ∀ name, v.class? name = (u.class? name).map n.classes
  aliases : ∀ name, v.alias? name = (u.alias? name).map n.references
  context : u.context.Renames v.context n

variable {u v : Universe} {n : Renaming}

theorem requireClassRenamed (classes : ∀ name, v.class? name = (u.class? name).map n.classes) (name : String) :
    Agrees (fun c d => d = n.classes c) (u.requireClass name) (v.requireClass name) := by
  rw [requireClass, requireClass, classes]
  cases u.class? name with
  | none => exact .error _
  | some c => exact .ok rfl

theorem requireAliasRenamed (aliases : ∀ name, v.alias? name = (u.alias? name).map n.references) (name : String) :
    Agrees (fun r q => q = n.references r) (u.requireAlias name) (v.requireAlias name) := by
  rw [requireAlias, requireAlias, aliases]
  cases u.alias? name with
  | none => exact .error _
  | some r => exact .ok rfl

mutual
/- Expressions are spelled in names, so that both universes lower them to one type, each in its own ids. -/
theorem lowerRenamed (classes : ∀ name, v.class? name = (u.class? name).map n.classes)
    (aliases : ∀ name, v.alias? name = (u.alias? name).map n.references) : ∀ e : TypeExpr,
      Agrees (fun t t' => t' = t.rename n) (u.lower e) (v.lower e)
  | .unknown => .ok rfl
  | .named name => by
    refine (requireClassRenamed classes name).bind fun c d same => .ok ?_
    rw [same, Ty.rename, Option.map_some]
  | .union members => by
    refine (lowerAllRenamed classes aliases members).bind fun ts ts' same => .ok ?_
    rw [same, Ty.renameUnionOf]
  | .tuple elements => by
    refine (lowerAllRenamed classes aliases elements).bind fun ts ts' same => .ok ?_
    rw [same, classes, Ty.rename, Ty.renameAllMap]
  | .collection name element => by
    refine (requireClassRenamed classes name).bind fun c d same => ?_
    refine (lowerRenamed classes aliases element).bind fun t t' inside => .ok ?_
    rw [same, inside, Ty.rename, Option.map_some]
  | .aliased name => by
    refine (requireAliasRenamed aliases name).bind fun r q same => .ok ?_
    rw [same, Ty.rename]

theorem lowerAllRenamed (classes : ∀ name, v.class? name = (u.class? name).map n.classes)
    (aliases : ∀ name, v.alias? name = (u.alias? name).map n.references) : ∀ es : List TypeExpr,
      Agrees (fun ts ts' => ts' = ts.map (Ty.rename n)) (u.lowerAll es) (v.lowerAll es)
  | [] => .ok rfl
  | e :: rest => by
    refine (lowerRenamed classes aliases e).bind fun t t' head => ?_
    refine (lowerAllRenamed classes aliases rest).bind fun ts ts' tail => .ok ?_
    rw [head, tail, List.map_cons]
end

/- Every union that an expression lowers to is built of its members. -/
theorem tidyBuilds (u : Universe) : u.Builds Ty.Tidy where
  unknown ms part := nomatch part
  nominal name c _ ms part := nomatch part
  reference name r _ ms part := nomatch part
  collection name c t _ inside ms part := by
    cases part with
    | element _ part => exact inside ms part
  tuple ts each ms part := by
    cases part with
    | slot _ member part => exact each _ member ms part
  union ts each := Ty.tidyUnionOf each

/- Both universes can be asked the same questions, and give the same answers. -/
theorem lowersRenamed (renames : u.Renames v n) (e : TypeExpr) :
    (∃ t, u.lower e = .ok t) ↔ ∃ t, v.lower e = .ok t := by
  have alike := fun t' => (lowerRenamed renames.classes renames.aliases e).okIff (b := t')
  constructor
  · rintro ⟨t, lowered⟩
    exact ⟨t.rename n, (alike _).mpr ⟨t, lowered, rfl⟩⟩
  · rintro ⟨t', lowered⟩
    obtain ⟨t, before, -⟩ := (alike t').mp lowered
    exact ⟨t, before⟩

theorem questionRenamed (renames : u.Renames v n) (plain : u.classes.NoTupleNames) (e a : TypeExpr) :
    v.isMatch e a = u.isMatch e a := by
  symm
  apply Agrees.same
  refine (lowerRenamed renames.classes renames.aliases e).bind fun t t' expected => ?_
  refine (lowerRenamed renames.classes renames.aliases a).bind fun s s' actual => .ok ?_
  rw [expected, actual, Context.renamedMatch renames.context u.contextSettled v.contextSettled plain]

end Universe
end GradualTypes
