import GradualTypes.SlotMatching
import GradualTypes.Proofs.MatchOrder
import GradualTypes.Proofs.SlotResolution

/-! A match of slots is a match of their trees, in which references have the answers that are read off an
earlier table. The order of members in a table has no part in it: a union asks all of its members or any of
them, and names decide only between a tuple and a class that is none, where what stands inside the tuple is
not looked at. -/
namespace GradualTypes

/- A comparison only adds to the table. -/
def Adding (f : α → TypeTable → Bool × TypeTable) : Prop :=
  ∀ a (t : TypeTable), t.Fills (f a t).2

/- A comparison has come to an answer, in a later table. -/
structure Decides (t : TypeTable) (made : Bool × TypeTable) (holds : Bool) : Prop where
  follows : t.Follows made.2
  holds : made.1 = holds

theorem TypeTable.Unfolds.decides {t : TypeTable} (unfolds : t.Unfolds) (b : Bool) : Decides t (b, t) b :=
  ⟨unfolds.follows, rfl⟩

theorem Decides.after {t u : TypeTable} {made : Bool × TypeTable} {b : Bool} (decides : Decides u made b)
    (follows : t.Follows u) : Decides t made b :=
  ⟨follows.trans decides.follows, decides.holds⟩

section
variable {α : Type} {f : α → TypeTable → Bool × TypeTable}

theorem Adding.allInTurn (adding : Adding f) : Adding (allInTurn f) := by
  intro row
  induction row with
  | nil => exact fun t => .refl t
  | cons a rest ih =>
    intro t
    rw [GradualTypes.allInTurn]
    split
    · exact (adding a t).trans (ih _)
    · exact adding a t

theorem Adding.anyInTurn (adding : Adding f) : Adding (anyInTurn f) := by
  intro row
  induction row with
  | nil => exact fun t => .refl t
  | cons a rest ih =>
    intro t
    rw [GradualTypes.anyInTurn]
    split
    · exact adding a t
    · exact (adding a t).trans (ih _)

/- A step comes to an answer in every table that follows `base` and has space. -/
def DecidesFrom (base : TypeTable) (step : TypeTable → Bool × TypeTable) (answer : Bool) : Prop :=
  ∀ t, base.Follows t → (step t).2.HasSpace → Decides t (step t) answer

variable {base : TypeTable} {answer : α → Bool} {row : List α}

theorem allDecides (adding : Adding f) (each : ∀ a ∈ row, DecidesFrom base (f a) (answer a)) :
    DecidesFrom base (allInTurn f row) (row.all answer) := by
  induction row with
  | nil => exact fun t follows _ => follows.unfolds.decides true
  | cons a rest ih =>
    intro t follows space
    rw [allInTurn] at space ⊢
    split at space
    · rename_i held
      have first := each a (by simp) t follows ((adding.allInTurn rest _).space space)
      have others := ih (fun a member => each a (by simp [member])) _ (follows.trans first.follows) space
      rw [if_pos held, List.all_cons, ← first.holds, held, Bool.true_and]
      exact others.after first.follows
    · rename_i failed
      have first := each a (by simp) t follows space
      have holds : answer a = false := by rw [← first.holds, Bool.eq_false_iff.mpr failed]
      rw [if_neg failed, List.all_cons, holds, Bool.false_and, ← holds]
      exact first

theorem anyDecides (adding : Adding f) (each : ∀ a ∈ row, DecidesFrom base (f a) (answer a)) :
    DecidesFrom base (anyInTurn f row) (row.any answer) := by
  induction row with
  | nil => exact fun t follows _ => follows.unfolds.decides false
  | cons a rest ih =>
    intro t follows space
    rw [anyInTurn] at space ⊢
    split at space
    · rename_i held
      have first := each a (by simp) t follows space
      have holds : answer a = true := by rw [← first.holds, held]
      rw [if_pos held, List.any_cons, holds, Bool.true_or, ← holds]
      exact first
    · rename_i failed
      have first := each a (by simp) t follows ((adding.anyInTurn rest _).space space)
      have others := ih (fun a member => each a (by simp [member])) _ (follows.trans first.follows) space
      rw [if_neg failed, List.any_cons, ← first.holds, Bool.eq_false_iff.mpr failed, Bool.false_or]
      exact others.after first.follows

end

/-! Names. -/

namespace Context

/- What a class-like type may be called: a tuple by anything in brackets, another type by its class. -/
def Names (x : Context) : Ty → Option String → Prop
  | .tuple _ _, name => ∃ elements, name = some ("tuple(" ++ elements)
  | t, name => name = t.class?.bind x.classes.name?

def namesAgree : Option String → Option String → Bool
  | some e, some a => e == a || NumericTier.promotes e a
  | _, _ => true

variable {x : Context}

theorem namesVerdict (x : Context) (e a : Ty) :
    (x.namesMatch e a).holds = namesAgree (e.name? x.classes) (a.name? x.classes) := by
  unfold namesMatch
  cases e.name? x.classes <;> cases a.name? x.classes <;> rfl

theorem namesTree (x : Context) {t : Ty} (classLike : t.isClassLike = true) : x.Names t (t.name? x.classes) := by
  cases t with
  | tuple c es => exact ⟨_, by rw [Ty.name?, String.append_assoc]⟩
  | nominal c => rfl
  | collection c e => rfl
  | _ => cases classLike

/- The name of a tuple agrees with no name of a class. -/
theorem tupleNameAgrees (plain : x.classes.NoTupleNames) (elements : String) (c : Option ClassId) :
    namesAgree (some ("tuple(" ++ elements)) (c.bind x.classes.name?) = (c.bind x.classes.name?).isNone ∧
      namesAgree (c.bind x.classes.name?) (some ("tuple(" ++ elements)) = (c.bind x.classes.name?).isNone := by
  cases named : c.bind x.classes.name? with
  | none => exact ⟨rfl, rfl⟩
  | some n =>
    obtain ⟨d, -, declared⟩ := Option.bind_eq_some_iff.mp named
    obtain ⟨different, promoted, promotes⟩ := tupleNamesApart plain elements declared
    simp [namesAgree, different, different.symm, promoted, promotes]

/- Between two types that are not both tuples it makes no difference which names they have. -/
theorem namesAlike (plain : x.classes.NoTupleNames) {e a : Ty} (left : e.isClassLike = true)
    (right : a.isClassLike = true) (apart : paired e a = false) {m m' n n' : Option String} (calls : x.Names e m)
    (calls' : x.Names e m') (called : x.Names a n) (called' : x.Names a n') :
    namesAgree m n = namesAgree m' n' := by
  cases e with
  | tuple c es =>
    obtain ⟨u, rfl⟩ := calls
    obtain ⟨v, rfl⟩ := calls'
    cases a with
    | tuple => cases apart
    | nominal | collection =>
      subst called called'
      rw [(tupleNameAgrees plain u _).1, (tupleNameAgrees plain v _).1]
    | _ => cases right
  | nominal | collection =>
    subst calls calls'
    cases a with
    | tuple d as =>
      obtain ⟨u, rfl⟩ := called
      obtain ⟨v, rfl⟩ := called'
      rw [(tupleNameAgrees plain u _).2, (tupleNameAgrees plain v _).2]
    | nominal | collection =>
      subst called called'
      rfl
    | _ => cases right
  | _ => cases left

theorem namesSlot (x : Context) {t : TypeTable} (unfolds : t.Unfolds) {h : Handle} {n : Node}
    (found : t.lookup h = some n) (classLike : (t.tree (some h)).isClassLike = true) :
    x.Names (t.tree (some h)) (t.name? x.classes (some h)) := by
  have form := TypeTable.formAt found
  have nodes : 0 < t.size := Nat.lt_of_lt_of_le (unfolds.nodeHigh form) (t.treeHeight _)
  have name : t.name? x.classes (some h) = t.nodeName? x.classes (t.nameWithin x.classes (t.size - 1)) n := by
    obtain ⟨depth, size⟩ := Nat.exists_eq_succ_of_ne_zero (Nat.ne_of_gt nodes)
    simp [TypeTable.name?, size, TypeTable.nameWithin, found]
  rw [name]
  rw [unfolds.treeForm form, Request.fullTreeSame unfolds.apart (unfolds.parts h _ form) (unfolds.plain h _ form)]
    at classLike ⊢
  cases n with
  | reference r => cases classLike
  | nominal c => rfl
  | collection c element => rfl
  | tuple c elements => exact ⟨_, by rw [TypeTable.nodeName?, String.append_assoc]⟩
  | union members => cases classLike

/-! The rules. -/

/- The context in which trees are matched, with the answers that are read off a table. -/
def reading (x : Context) (refs : SlotReferences) (base : TypeTable) : Context :=
  { x with resolver := ⟨refs.answerIn base, 2⟩ }

theorem readingSettled (x : Context) (refs : SlotReferences) (base : TypeTable) :
    (x.reading refs base).resolver.Settled := ⟨refs.answerGround base, rfl⟩

/- On how many sides a reference may still be met. -/
def openSides (expected actual : Ty) : Nat :=
  (if expected.isGround then 0 else 1) + (if actual.isGround then 0 else 1)

theorem openSidesMono {e e' a a' : Ty} (left : e'.isGround = true → e.isGround = true)
    (right : a'.isGround = true → a.isGround = true) : openSides e a ≤ openSides e' a' := by
  unfold openSides
  refine Nat.add_le_add ?_ ?_
  · split <;> split <;> simp_all
  · split <;> split <;> simp_all

theorem openSidesComm (e a : Ty) : openSides e a = openSides a e := Nat.add_comm _ _

/- An answer leaves no reference on its side. -/
theorem answerCloses (refs : SlotReferences) (base : TypeTable) (r : RefId) (s : Ty) :
    openSides (refs.answerIn base r) s < openSides (.reference r) s := by
  simp [openSides, refs.answerGround base r, Ty.isGround]

/- A comparison of slots in later tables is a match of their trees, if these are as required. -/
def Matches (x : Context) (refs : SlotReferences) (base : TypeTable) (f : Slot → Slot → TypeTable → Bool × TypeTable)
    (fits : Ty → Ty → Prop) : Prop :=
  ∀ e a t, base.Follows t → t.Stands e → t.Stands a → fits (t.tree e) (t.tree a) → (f e a t).2.HasSpace →
    Decides t (f e a t) ((x.reading refs base).isMatch (t.tree e) (t.tree a))

section
variable {refs : SlotReferences} {base t : TypeTable} {resume part : Slot → Slot → TypeTable → Bool × TypeTable}
  {e a : Handle} {n m : Node}

theorem Matches.decides {fits : Ty → Ty → Prop} (same : x.Matches refs base part fits) (follows : base.Follows t)
    {l r : Slot} (left : t.Stands l) (right : t.Stands r) (fit : fits (t.tree l) (t.tree r)) :
    DecidesFrom t (part l r) ((x.reading refs base).isMatch (t.tree l) (t.tree r)) := by
  intro u later space
  have trees := same l r u (follows.trans later) (later.stands left) (later.stands right)
  rw [later.tree left, later.tree right] at trees
  exact trees fit space

theorem compareNodesAdds (resumes : ∀ l, Adding (resume l)) (parts : ∀ l, Adding (part l)) (e a : Handle)
    (t : TypeTable) (n m : Node) : t.Fills (x.compareNodes refs resume part e a t n m).2 := by
  unfold compareNodes
  split
  · exact (refs.resolveGrows _ t).trans (resumes _ _ _)
  · exact (refs.resolveGrows _ t).trans (resumes _ _ _)
  · split
    · exact .refl t
    · exact (parts _).allInTurn _ t
  · exact Adding.anyInTurn (fun l u => parts l _ u) _ t
  · split
    · exact .refl t
    · split
      · exact parts _ _ t
      · exact .refl t
  · split
    · exact .refl t
    · split
      · exact Adding.allInTurn (fun (p : Slot × Slot) u => parts p.1 p.2 u) _ t
      · exact .refl t
  · exact .refl t

theorem compareAdds (resumes : ∀ l, Adding (resume l)) (depth : Nat) (l : Slot) :
    Adding (x.compareSlots refs resume depth l) := by
  induction depth generalizing l with
  | zero => exact fun r t => .refl t
  | succ depth ih =>
    intro r t
    cases l with
    | none => exact .refl t
    | some e =>
      cases r with
      | none => exact .refl t
      | some a =>
        rw [compareSlots]
        split
        · exact compareNodesAdds resumes ih e a t _ _
        · exact .refl t

theorem matchAdds (x : Context) (refs : SlotReferences) (steps : Nat) (l : Slot) :
    Adding (x.matchWithin refs steps l) := by
  induction steps generalizing l with
  | zero => exact fun r t => compareAdds (fun _ _ t => .refl t) _ l r t
  | succ steps ih => exact fun r t => compareAdds ih _ l r t

/- Where a reference is answered, one side less is open. -/
theorem resumesLeft {w : Nat} {r : RefId} {s : Slot} (resumes : ∀ l, Adding (resume l)) (unfolds : base.Unfolds)
    (stand : refs.Stand base) (resumed : x.Matches refs base resume (fun l r => openSides l r < w))
    (follows : base.Follows t) (found : t.lookup e = some (.reference r)) (stands : t.Stands s)
    (few : openSides (t.tree (some e)) (t.tree s) ≤ w)
    (space : (resume (refs.resolve r t).1 s (refs.resolve r t).2).2.HasSpace) :
    Decides t (resume (refs.resolve r t).1 s (refs.resolve r t).2)
      ((x.reading refs base).isMatch (t.tree (some e)) (t.tree s)) := by
  have answer := SlotReferences.resolveReads unfolds stand follows r ((resumes _ _ _).space space)
  have tree : t.tree (some e) = .reference r := follows.unfolds.treeForm (TypeTable.formAt found)
  have kept := answer.follows.tree stands
  have fewer : openSides (refs.answerIn base r) (t.tree s) < w :=
    Nat.lt_of_lt_of_le (answerCloses refs base r _) (tree ▸ few)
  have decides := resumed _ s _ (follows.trans answer.follows) answer.stands (answer.follows.stands stands)
  rw [answer.tree, kept] at decides
  rw [tree, matchReferenceLeft (x.readingSettled refs base)]
  exact (decides fewer space).after answer.follows

theorem resumesRight {w : Nat} {r : RefId} {s : Slot} (resumes : ∀ l, Adding (resume l)) (unfolds : base.Unfolds)
    (stand : refs.Stand base) (resumed : x.Matches refs base resume (fun l r => openSides l r < w))
    (follows : base.Follows t) (found : t.lookup a = some (.reference r)) (stands : t.Stands s)
    (few : openSides (t.tree s) (t.tree (some a)) ≤ w)
    (space : (resume s (refs.resolve r t).1 (refs.resolve r t).2).2.HasSpace) :
    Decides t (resume s (refs.resolve r t).1 (refs.resolve r t).2)
      ((x.reading refs base).isMatch (t.tree s) (t.tree (some a))) := by
  have answer := SlotReferences.resolveReads unfolds stand follows r ((resumes _ _ _).space space)
  have tree : t.tree (some a) = .reference r := follows.unfolds.treeForm (TypeTable.formAt found)
  have kept := answer.follows.tree stands
  have fewer : openSides (t.tree s) (refs.answerIn base r) < w := by
    rw [tree, openSidesComm] at few
    rw [openSidesComm]
    exact Nat.lt_of_lt_of_le (answerCloses refs base r _) few
  have decides := resumed s _ _ (follows.trans answer.follows) (answer.follows.stands stands) answer.stands
  rw [answer.tree, kept] at decides
  rw [tree, matchReferenceRight (x.readingSettled refs base)]
  exact (decides fewer space).after answer.follows

variable {y : Context}

theorem unionRight (settled : y.resolver.Settled) (unfolds : t.Unfolds) {s : Slot} {ms : ListId}
    (found : t.lookup a = some (.union ms)) (adding : Adding (part s))
    (each : ∀ u ∈ t.list ms, DecidesFrom t (part s u) (y.isMatch (t.tree s) (t.tree u)))
    (space : (if none ∈ t.list ms then (true, t) else allInTurn (part s) (t.list ms) t).2.HasSpace) :
    Decides t (if none ∈ t.list ms then (true, t) else allInTurn (part s) (t.list ms) t)
      (y.isMatch (t.tree s) (t.tree (some a))) := by
  have tree : t.tree (some a) = .unionOf ((t.list ms).map t.tree) := unfolds.treeForm (TypeTable.formAt found)
  have rule := matchUnionOfRight settled (t.tree s) ((t.list ms).map t.tree)
  rw [← tree] at rule
  have hole : .unknown ∈ (t.list ms).map t.tree ↔ none ∈ t.list ms := by
    constructor
    · intro member
      obtain ⟨u, inside, unknown⟩ := List.mem_map.mp member
      have stands := unfolds.parts a _ (TypeTable.formAt found) u inside
      rwa [← unfolds.distinct u none stands (.inl rfl) (unknown.trans t.treeNone.symm)]
    · intro member
      exact List.mem_map.mpr ⟨none, member, t.treeNone⟩
  rw [hole] at rule
  split at space
  · rename_i known
    rw [if_pos known, rule.mpr (.inl known)]
    exact unfolds.decides true
  · rename_i known
    have all := allDecides adding each t unfolds.follows space
    have same : (t.list ms).all (fun u => y.isMatch (t.tree s) (t.tree u)) =
        y.isMatch (t.tree s) (t.tree (some a)) := by
      rw [Bool.eq_iff_iff, rule, List.all_eq_true, List.forall_mem_map]
      simp [known]
    rwa [if_neg known, ← same]

theorem unionLeft (settled : y.resolver.Settled) (unfolds : t.Unfolds) {s : Slot} {ms : ListId}
    (found : t.lookup e = some (.union ms)) (classLike : (t.tree s).isClassLike = true)
    (adding : ∀ l, Adding (part l))
    (each : ∀ u ∈ t.list ms, DecidesFrom t (part u s) (y.isMatch (t.tree u) (t.tree s)))
    (space : (anyInTurn (fun u => part u s) (t.list ms) t).2.HasSpace) :
    Decides t (anyInTurn (fun u => part u s) (t.list ms) t) (y.isMatch (t.tree (some e)) (t.tree s)) := by
  have tree : t.tree (some e) = .unionOf ((t.list ms).map t.tree) := unfolds.treeForm (TypeTable.formAt found)
  have any := anyDecides (fun l u => adding l s u) each t unfolds.follows space
  have same : (t.list ms).any (fun u => y.isMatch (t.tree u) (t.tree s)) =
      y.isMatch (t.tree (some e)) (t.tree s) := by
    rw [Bool.eq_iff_iff, tree, matchUnionOfLeft settled _ classLike, List.any_eq_true]
    simp
  rwa [← same]

theorem collectionsDecide (settled : y.resolver.Settled) (unfolds : t.Unfolds) {c d : Option ClassId} {l r : Slot}
    (left : t.lookup e = some (.collection c l)) (right : t.lookup a = some (.collection d r))
    (element : DecidesFrom t (part l r) (y.isMatch (t.tree l) (t.tree r)))
    (space : (if y.isUniversal c then (true, t)
      else if y.classesCompatible c d then part l r t else (false, t)).2.HasSpace) :
    Decides t (if y.isUniversal c then (true, t) else if y.classesCompatible c d then part l r t else (false, t))
      (y.isMatch (t.tree (some e)) (t.tree (some a))) := by
  have leftTree : t.tree (some e) = .collection c (t.tree l) := unfolds.treeForm (TypeTable.formAt left)
  have rightTree : t.tree (some a) = .collection d (t.tree r) := unfolds.treeForm (TypeTable.formAt right)
  have rule := matchCollections settled c d (t.tree l) (t.tree r)
  rw [leftTree, rightTree]
  by_cases universal : y.isUniversal c = true
  · rw [if_pos universal, rule.mpr (.inl universal)]
    exact unfolds.decides true
  · rw [if_neg universal] at space ⊢
    by_cases compatible : y.classesCompatible c d = true
    · rw [if_pos compatible] at space ⊢
      have same : y.isMatch (.collection c (t.tree l)) (.collection d (t.tree r)) =
          y.isMatch (t.tree l) (t.tree r) := by
        rw [Bool.eq_iff_iff, rule]
        simp [universal, compatible]
      rw [same]
      exact element t unfolds.follows space
    · have fails : y.isMatch (.collection c (t.tree l)) (.collection d (t.tree r)) = false := by
        rw [Bool.eq_false_iff, Ne, rule]
        simp [universal, compatible]
      rw [if_neg compatible, fails]
      exact unfolds.decides false

theorem tuplesDecide (settled : y.resolver.Settled) (unfolds : t.Unfolds) {c d : Option ClassId} {ls rs : ListId}
    (left : t.lookup e = some (.tuple c ls)) (right : t.lookup a = some (.tuple d rs))
    (adding : ∀ l, Adding (part l))
    (each : ∀ p ∈ (t.list ls).zip (t.list rs), DecidesFrom t (part p.1 p.2) (y.isMatch (t.tree p.1) (t.tree p.2)))
    (space : (if y.isUniversal c then (true, t)
      else if (t.list ls).length = (t.list rs).length then
        allInTurn (fun p => part p.1 p.2) ((t.list ls).zip (t.list rs)) t
      else (false, t)).2.HasSpace) :
    Decides t (if y.isUniversal c then (true, t)
      else if (t.list ls).length = (t.list rs).length then
        allInTurn (fun p => part p.1 p.2) ((t.list ls).zip (t.list rs)) t
      else (false, t))
      (y.isMatch (t.tree (some e)) (t.tree (some a))) := by
  have leftTree : t.tree (some e) = .tuple c ((t.list ls).map t.tree) := unfolds.treeForm (TypeTable.formAt left)
  have rightTree : t.tree (some a) = .tuple d ((t.list rs).map t.tree) := unfolds.treeForm (TypeTable.formAt right)
  have rule := matchTuples settled c d ((t.list ls).map t.tree) ((t.list rs).map t.tree)
  rw [List.forall₂_map_left_iff, List.forall₂_map_right_iff, List.forall₂_iff_zip] at rule
  rw [leftTree, rightTree]
  by_cases universal : y.isUniversal c = true
  · rw [if_pos universal, rule.mpr (.inl universal)]
    exact unfolds.decides true
  · rw [if_neg universal] at space ⊢
    by_cases arity : (t.list ls).length = (t.list rs).length
    · rw [if_pos arity] at space ⊢
      have all := allDecides (fun (p : Slot × Slot) u => adding p.1 p.2 u) each t unfolds.follows space
      have same : ((t.list ls).zip (t.list rs)).all (fun p => y.isMatch (t.tree p.1) (t.tree p.2)) =
          y.isMatch (.tuple c ((t.list ls).map t.tree)) (.tuple d ((t.list rs).map t.tree)) := by
        rw [Bool.eq_iff_iff, rule, List.all_eq_true]
        simp [universal, arity]
      rwa [← same]
    · have fails : y.isMatch (.tuple c ((t.list ls).map t.tree)) (.tuple d ((t.list rs).map t.tree)) = false := by
        rw [Bool.eq_false_iff, Ne, rule]
        simp [universal, arity]
      rw [if_neg arity, fails]
      exact unfolds.decides false

theorem classOfNode (unfolds : t.Unfolds) (found : t.lookup e = some n) :
    (t.tree (some e)).class? = n.class? := by
  have form := TypeTable.formAt found
  rw [unfolds.treeForm form, Request.fullTreeSame unfolds.apart (unfolds.parts e _ form) (unfolds.plain e _ form)]
  cases n <;> rfl

/- Two types of classes that have no parts to compare. -/
theorem apartDecides (plain : y.classes.NoTupleNames) (settled : y.resolver.Settled) (unfolds : t.Unfolds)
    (left : t.lookup e = some n) (right : t.lookup a = some m) (leftLike : (t.tree (some e)).isClassLike = true)
    (rightLike : (t.tree (some a)).isClassLike = true)
    (apart : paired (t.tree (some e)) (t.tree (some a)) = false) :
    Decides t (y.isUniversal n.class? || y.classesCompatible n.class? m.class? || e == a ||
      y.slotNamesMatch t (some e) (some a), t) (y.isMatch (t.tree (some e)) (t.tree (some a))) := by
  have rule := matchApart settled leftLike rightLike apart
  rw [classOfNode unfolds left, classOfNode unfolds right] at rule
  have names : y.slotNamesMatch t (some e) (some a) = (y.namesMatch (t.tree (some e)) (t.tree (some a))).holds := by
    have alike := namesAlike plain leftLike rightLike apart (y.namesSlot unfolds left leftLike)
      (y.namesTree leftLike) (y.namesSlot unfolds right rightLike) (y.namesTree rightLike)
    rw [y.namesVerdict, ← alike]
    rfl
  have equal : e = a → y.classesCompatible n.class? m.class? = true := by
    rintro rfl
    obtain rfl : n = m := Option.some.inj (left.symm.trans right)
    exact y.compatibleSelf _
  have same : (y.isUniversal n.class? || y.classesCompatible n.class? m.class? || e == a ||
      y.slotNamesMatch t (some e) (some a)) = y.isMatch (t.tree (some e)) (t.tree (some a)) := by
    rw [Bool.eq_iff_iff, rule, names]
    simp only [Bool.or_eq_true, beq_iff_eq, or_assoc]
    constructor
    · rintro (universal | compatible | handle | named)
      · exact .inl universal
      · exact .inr (.inl compatible)
      · exact .inr (.inl (equal handle))
      · exact .inr (.inr named)
    · rintro (universal | compatible | named)
      · exact .inl universal
      · exact .inr (.inl compatible)
      · exact .inr (.inr (.inr named))
  rw [same]
  exact unfolds.decides _

/- What is left to compare in two trees, and where references may still be met. -/
def Fits (depth w : Nat) (e a : Ty) : Prop := e.height + a.height ≤ depth ∧ openSides e a ≤ w

theorem groundPart (unfolds : t.Unfolds) (found : t.lookup e = some n) {s : Slot} (inside : s ∈ (t.read n).slots)
    (ground : (t.tree (some e)).isGround = true) : (t.tree s).isGround = true := by
  have form := TypeTable.formAt found
  rw [unfolds.treeForm form, Request.fullTreeSame unfolds.apart (unfolds.parts e _ form) (unfolds.plain e _ form)]
    at ground
  cases n with
  | reference r => cases inside
  | nominal c => cases inside
  | collection c element => rwa [List.mem_singleton.mp inside]
  | tuple c elements => exact Ty.allGroundIff.mp ground _ (List.mem_map_of_mem inside)
  | union members => exact Ty.allGroundIff.mp ground _ (Ty.memCanonical.mpr (List.mem_map_of_mem inside))

/-- Two nodes are compared as their trees are matched, if the slots in them are. -/
theorem nodesDecide {depth w : Nat} (plain : x.classes.NoTupleNames) (unfolds : base.Unfolds)
    (stand : refs.Stand base) (resumes : ∀ l, Adding (resume l)) (parts : ∀ l, Adding (part l))
    (resumed : x.Matches refs base resume (fun l r => openSides l r < w))
    (compared : x.Matches refs base part (Fits depth w)) (follows : base.Follows t)
    (left : t.lookup e = some n) (right : t.lookup a = some m)
    (fits : Fits (depth + 1) w (t.tree (some e)) (t.tree (some a)))
    (space : (x.compareNodes refs resume part e a t n m).2.HasSpace) :
    Decides t (x.compareNodes refs resume part e a t n m)
      ((x.reading refs base).isMatch (t.tree (some e)) (t.tree (some a))) := by
  have settled := x.readingSettled refs base
  have later := follows.unfolds
  have leftForm := TypeTable.formAt left
  have rightForm := TypeTable.formAt right
  have leftStands : t.Stands (some e) := .inr (.inr ⟨e, _, rfl, leftForm⟩)
  have rightStands : t.Stands (some a) := .inr (.inr ⟨a, _, rfl, rightForm⟩)
  obtain ⟨low, few⟩ := fits
  have leftFits : ∀ s ∈ (t.read n).slots, Fits depth w (t.tree s) (t.tree (some a)) := by
    intro s inside
    have lower := later.partLower leftForm inside
    exact ⟨by omega, Nat.le_trans (openSidesMono (groundPart later left inside) id) few⟩
  have rightFits : ∀ s ∈ (t.read m).slots, Fits depth w (t.tree (some e)) (t.tree s) := by
    intro s inside
    have lower := later.partLower rightForm inside
    exact ⟨by omega, Nat.le_trans (openSidesMono id (groundPart later right inside)) few⟩
  have bothFit : ∀ s ∈ (t.read n).slots, ∀ u ∈ (t.read m).slots, Fits depth w (t.tree s) (t.tree u) := by
    intro s inside u within
    have lower := later.partLower leftForm inside
    have lower' := later.partLower rightForm within
    exact ⟨by omega, Nat.le_trans (openSidesMono (groundPart later left inside) (groundPart later right within)) few⟩
  have leftParts := later.parts e _ leftForm
  have rightParts := later.parts a _ rightForm
  have leftEach : ∀ s ∈ (t.read n).slots, DecidesFrom t (part s (some a)) _ := fun s inside =>
    compared.decides follows (leftParts s inside) rightStands (leftFits s inside)
  have rightEach : ∀ s ∈ (t.read m).slots, DecidesFrom t (part (some e) s) _ := fun s inside =>
    compared.decides follows leftStands (rightParts s inside) (rightFits s inside)
  have bothEach : ∀ s ∈ (t.read n).slots, ∀ u ∈ (t.read m).slots, DecidesFrom t (part s u) _ :=
    fun s inside u within =>
      compared.decides follows (leftParts s inside) (rightParts u within) (bothFit s inside u within)
  have leftTree := later.treeForm leftForm
  have rightTree := later.treeForm rightForm
  have named : (x.reading refs base).classes.NoTupleNames := plain
  have apart := apartDecides named settled later left right
  rw [leftTree, rightTree] at apart
  cases n with
  | reference r => exact resumesLeft resumes unfolds stand resumed follows left rightStands few space
  | union ms =>
    cases m with
    | reference r => exact resumesRight resumes unfolds stand resumed follows right leftStands few space
    | union us => exact unionRight settled later right (parts _) rightEach space
    | nominal | collection | tuple =>
      exact unionLeft settled later left (by rw [rightTree]; rfl) parts leftEach space
  | nominal c =>
    cases m with
    | reference r => exact resumesRight resumes unfolds stand resumed follows right leftStands few space
    | union us => exact unionRight settled later right (parts _) rightEach space
    | nominal | collection | tuple =>
      rw [leftTree, rightTree]
      exact apart rfl rfl rfl
  | collection c l =>
    cases m with
    | reference r => exact resumesRight resumes unfolds stand resumed follows right leftStands few space
    | union us => exact unionRight settled later right (parts _) rightEach space
    | collection d r =>
      exact collectionsDecide settled later left right (bothEach l List.mem_cons_self r List.mem_cons_self) space
    | nominal | tuple =>
      rw [leftTree, rightTree]
      exact apart rfl rfl rfl
  | tuple c ls =>
    cases m with
    | reference r => exact resumesRight resumes unfolds stand resumed follows right leftStands few space
    | union us => exact unionRight settled later right (parts _) rightEach space
    | tuple d rs =>
      exact tuplesDecide settled later left right parts
        (fun p member => bothEach p.1 (List.of_mem_zip member).1 p.2 (List.of_mem_zip member).2) space
    | nominal | collection =>
      rw [leftTree, rightTree]
      exact apart rfl rfl rfl

/- There is nothing behind one of two slots. -/
theorem leafLeft (settled : y.resolver.Settled) (unfolds : t.Unfolds) {s : Slot}
    (leaf : s = none ∨ s = some .overflow) (depth : Nat) (r : Slot) :
    Decides t (x.compareSlots refs resume depth s r t) (y.isMatch (t.tree s) (t.tree r)) := by
  have absent := unfolds.sound.kept.overflowFree
  have yes : x.compareSlots refs resume depth s r t = (true, t) := by
    rcases leaf with rfl | rfl <;> cases depth <;> cases r <;> simp [compareSlots, absent]
  have holds : y.isMatch (t.tree s) (t.tree r) = true := by
    rcases leaf with rfl | rfl
    · rw [t.treeNone, matchUnknownLeft settled]
    · rw [unfolds.sound.treeMissing, matchMissingLeft settled]
  rw [yes, holds]
  exact unfolds.decides true

theorem leafRight (settled : y.resolver.Settled) (unfolds : t.Unfolds) {r : Slot}
    (leaf : r = none ∨ r = some .overflow) (depth : Nat) (s : Slot) :
    Decides t (x.compareSlots refs resume depth s r t) (y.isMatch (t.tree s) (t.tree r)) := by
  have absent := unfolds.sound.kept.overflowFree
  have yes : x.compareSlots refs resume depth s r t = (true, t) := by
    rcases leaf with rfl | rfl <;> cases depth <;> cases s <;> simp [compareSlots, absent]
  have holds : y.isMatch (t.tree s) (t.tree r) = true := by
    rcases leaf with rfl | rfl
    · rw [t.treeNone, matchUnknownRight settled]
    · rw [unfolds.sound.treeMissing, matchMissingRight settled]
  rw [yes, holds]
  exact unfolds.decides true

theorem compareDecides {w : Nat} (plain : x.classes.NoTupleNames) (unfolds : base.Unfolds)
    (stand : refs.Stand base) (resumes : ∀ l, Adding (resume l))
    (resumed : x.Matches refs base resume (fun l r => openSides l r < w)) (depth : Nat) :
    x.Matches refs base (x.compareSlots refs resume depth) (Fits depth w) := by
  have settled := x.readingSettled refs base
  induction depth with
  | zero =>
    intro s r t follows left right fits _
    rcases left with none | overflow | ⟨e, q, rfl, form⟩
    · exact leafLeft settled follows.unfolds (.inl none) 0 r
    · exact leafLeft settled follows.unfolds (.inr overflow) 0 r
    · have high := follows.unfolds.nodeHigh form
      have low := fits.1
      omega
  | succ depth ih =>
    intro s r t follows left right fits space
    rcases left with none | overflow | ⟨e, q, rfl, form⟩
    · exact leafLeft settled follows.unfolds (.inl none) _ r
    · exact leafLeft settled follows.unfolds (.inr overflow) _ r
    · rcases right with none | overflow | ⟨a, q', rfl, form'⟩
      · exact leafRight settled follows.unfolds (.inl none) _ (some e)
      · exact leafRight settled follows.unfolds (.inr overflow) _ (some e)
      · obtain ⟨n, found, -⟩ := Option.map_eq_some_iff.mp form
        obtain ⟨m, found', -⟩ := Option.map_eq_some_iff.mp form'
        rw [compareSlots, found, found'] at space ⊢
        exact nodesDecide plain unfolds stand resumes (compareAdds resumes depth) resumed ih follows found found' fits
          space

theorem matchDecides (plain : x.classes.NoTupleNames) (unfolds : base.Unfolds) (stand : refs.Stand base)
    (steps : Nat) : x.Matches refs base (x.matchWithin refs steps) (fun l r => openSides l r ≤ steps) := by
  have low : ∀ (t : TypeTable) (s r : Slot), (t.tree s).height + (t.tree r).height ≤ 2 * t.size := by
    intro t s r
    have left := t.treeHeight s
    have right := t.treeHeight r
    omega
  induction steps with
  | zero =>
    intro s r t follows left right few space
    exact compareDecides plain unfolds stand (fun _ _ t => .refl t)
      (fun _ _ _ _ _ _ fewer _ => absurd fewer (Nat.not_lt_zero _)) _ s r t follows left right ⟨low t s r, few⟩ space
  | succ steps ih =>
    intro s r t follows left right few space
    have resumed : x.Matches refs base (x.matchWithin refs steps) (fun l r => openSides l r < steps + 1) :=
      fun s r t follows left right fewer => ih s r t follows left right (Nat.le_of_lt_succ fewer)
    exact compareDecides plain unfolds stand (x.matchAdds refs steps) resumed _ s r t follows left right
      ⟨low t s r, few⟩ space

/-- In every table that follows the one in which the references were bound, slots match as their trees do. -/
theorem slotsMatch (plain : x.classes.NoTupleNames) (unfolds : base.Unfolds) (stand : refs.Stand base) :
    x.Matches refs base (x.matchSlots refs) (fun _ _ => True) := by
  have few : ∀ e a, openSides e a ≤ 2 := by
    intro e a
    unfold openSides
    split <;> split <;> decide
  exact fun s r t follows left right _ =>
    x.matchDecides plain unfolds stand 2 s r t follows left right (few _ _)

end
end Context
end GradualTypes
