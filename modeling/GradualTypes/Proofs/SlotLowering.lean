import GradualTypes.SharedUniverse
import GradualTypes.Proofs.Lowering
import GradualTypes.Proofs.TableGrowth

/-! Lowering into a table. An expression fails in a table exactly as it fails by itself, and otherwise gets a
slot for the tree that it lowers to. Whatever it made on the way stays, and only adds to the table. -/
namespace GradualTypes.SharedUniverse

section
variable {α β γ δ : Type} {t : TypeTable}

theorem andThenOk {part : Lowered α} {a : α} (ok : part.1 = .ok a) (next : α → TypeTable → Lowered β) :
    andThen part next = next a part.2 := by
  unfold andThen
  rw [ok]

theorem andThenFills {part : Lowered α} {next : α → TypeTable → Lowered β} (first : t.Fills part.2)
    (rest : ∀ a (v : TypeTable), v.Fills (next a v).2) : t.Fills (andThen part next).2 := by
  unfold andThen
  split
  · exact first
  · exact first.trans (rest _ _)

theorem andThenAgrees {part : Lowered α} {m : Except LowerError β} {next : α → TypeTable → Lowered γ}
    {f : β → Except LowerError δ} {R : α → β → Prop} {S : γ → δ → Prop} (first : Agrees R part.1 m)
    (rest : ∀ a b v, R a b → Agrees S (next a v).1 (f b)) : Agrees S (andThen part next).1 (m >>= f) := by
  obtain ⟨result, v⟩ := part
  cases first with
  | error e => exact .error e
  | ok related => exact rest _ _ v related

end

mutual
theorem lowerFills (u : Universe) : ∀ (e : TypeExpr) (t : TypeTable), t.Fills (lowerInto u e t).2
  | .unknown, t => .refl t
  | .named _, t => andThenFills (.refl t) fun c v => v.answerFills (.nominal (some c))
  | .union members, t => andThenFills (lowerAllFills u members t) fun ms v => v.answerFills (.union ms)
  | .tuple elements, t => andThenFills (lowerAllFills u elements t) fun es v => v.answerFills (.tuple _ es)
  | .collection _ element, t =>
    andThenFills (.refl t) fun c v =>
    andThenFills (lowerFills u element v) fun e w => w.answerFills (.collection (some c) e)
  | .aliased _, t => andThenFills (.refl t) fun r v => v.answerFills (.reference r)

theorem lowerAllFills (u : Universe) : ∀ (es : List TypeExpr) (t : TypeTable), t.Fills (lowerAllInto u es t).2
  | [], t => .refl t
  | e :: rest, t =>
    andThenFills (lowerFills u e t) fun _ v => andThenFills (lowerAllFills u rest v) fun _ w => .refl w
end

def Alike {α β : Type} (m : Except LowerError α) (m' : Except LowerError β) : Prop := Agrees (fun _ _ => True) m m'

theorem alikeSelf {α : Type} (m : Except LowerError α) : Alike m m := .refl (fun _ => trivial) m

mutual
theorem lowerAlike (u : Universe) : ∀ (e : TypeExpr) (t : TypeTable), Alike (lowerInto u e t).1 (u.lower e)
  | .unknown, _ => .ok trivial
  | .named _, _ => andThenAgrees (alikeSelf _) fun _ _ _ _ => .ok trivial
  | .union members, t => andThenAgrees (lowerAllAlike u members t) fun _ _ _ _ => .ok trivial
  | .tuple elements, t => andThenAgrees (lowerAllAlike u elements t) fun _ _ _ _ => .ok trivial
  | .collection _ element, _ =>
    andThenAgrees (alikeSelf _) fun _ _ v _ =>
    andThenAgrees (lowerAlike u element v) fun _ _ _ _ => .ok trivial
  | .aliased _, _ => andThenAgrees (alikeSelf _) fun _ _ _ _ => .ok trivial

theorem lowerAllAlike (u : Universe) : ∀ (es : List TypeExpr) (t : TypeTable),
    Alike (lowerAllInto u es t).1 (u.lowerAll es)
  | [], _ => .ok trivial
  | e :: rest, t =>
    andThenAgrees (lowerAlike u e t) fun _ _ v _ =>
    andThenAgrees (lowerAllAlike u rest v) fun _ _ _ _ => .ok trivial
end

/- A slot for a tree, or the failure of the tree. -/
structure Spells (t : TypeTable) (made : Lowered Slot) (m : Except LowerError Ty) : Prop where
  follows : t.Follows made.2
  agrees : Agrees (fun s ty => made.2.Stands s ∧ made.2.tree s = ty) made.1 m

structure SpellsAll (t : TypeTable) (made : Lowered (List Slot)) (m : Except LowerError (List Ty)) : Prop where
  follows : t.Follows made.2
  agrees : Agrees (fun ss ts => (∀ s ∈ ss, made.2.Stands s) ∧ ss.map made.2.tree = ts) made.1 m

/- A call with what a part was lowered to. -/
theorem spellsCall {α β : Type} (call : α → Request) (tree : β → Ty) {t : TypeTable} {part : Lowered α}
    {m : Except LowerError β} {R : α → β → Prop} (follows : t.Follows part.2) (agrees : Agrees R part.1 m)
    (fits : ∀ a b, R a b → (∀ s ∈ (call a).slots, part.2.Stands s) ∧ (call a).tree part.2.tree = tree b)
    (space : (andThen part fun a v => made (v.answer (call a))).2.HasSpace) :
    Spells t (andThen part fun a v => made (v.answer (call a))) (m >>= fun b => .ok (tree b)) := by
  obtain ⟨result, v⟩ := part
  cases agrees with
  | error e => exact ⟨follows, .error e⟩
  | ok related =>
    obtain ⟨stands, same⟩ := fits _ _ related
    have gives := follows.unfolds.gives stands space
    exact ⟨follows.trans gives.follows, .ok ⟨gives.stands, gives.tree.trans same⟩⟩

theorem callFills {α : Type} (call : α → Request) (part : Lowered α) :
    part.2.Fills (andThen part fun a v => made (v.answer (call a))).2 :=
  andThenFills (.refl _) fun a v => v.answerFills (call a)

/- A name is looked up, and a call is made with what it stands for. -/
theorem spellsName {α : Type} (call : α → Request) (tree : α → Ty) (found : Except LowerError α) {t : TypeTable}
    (unfolds : t.Unfolds) (bare : ∀ a, (call a).slots = [] ∧ (call a).tree t.tree = tree a)
    (space : (andThen (found, t) fun a v => made (v.answer (call a))).2.HasSpace) :
    Spells t (andThen (found, t) fun a v => made (v.answer (call a))) (found >>= fun a => .ok (tree a)) := by
  refine spellsCall call tree (R := fun a b => a = b) unfolds.follows (.refl (fun _ => rfl) found) ?_ space
  rintro a _ rfl
  exact ⟨by simp [(bare a).1], (bare a).2⟩

theorem spellsCons {t : TypeTable} {part : Lowered Slot} {m : Except LowerError Ty}
    {rest : TypeTable → Lowered (List Slot)} {ms : Except LowerError (List Ty)} (first : Spells t part m)
    (others : ∀ s, part.1 = .ok s → SpellsAll part.2 (rest part.2) ms) :
    SpellsAll t (andThen part fun s v => andThen (rest v) fun ss w => (.ok (s :: ss), w))
      (m >>= fun x => ms >>= fun xs => .ok (x :: xs)) := by
  obtain ⟨result, v⟩ := part
  obtain ⟨follows, agrees⟩ := first
  cases agrees with
  | error e => exact ⟨follows, .error e⟩
  | @ok s _ head =>
    obtain ⟨stands, rfl⟩ := head
    obtain ⟨later, each⟩ := others s rfl
    change SpellsAll t (andThen (rest v) fun ss w => (.ok (s :: ss), w)) (ms >>= fun xs => .ok (v.tree s :: xs))
    revert later each
    generalize rest v = tail
    obtain ⟨results, w⟩ := tail
    intro later each
    cases each with
    | error e => exact ⟨follows.trans later, .error e⟩
    | ok row =>
      obtain ⟨stand, rfl⟩ := row
      have head : w.tree s = v.tree s := later.tree stands
      refine ⟨follows.trans later, .ok ⟨List.forall_mem_cons.mpr ⟨later.stands stands, stand⟩, ?_⟩⟩
      exact congrArg (· :: _) head

mutual
/-- In a table with space an expression gets a slot for its tree. -/
theorem lowerSpells (u : Universe) : ∀ (e : TypeExpr) {t : TypeTable}, t.Unfolds →
    (lowerInto u e t).2.HasSpace → Spells t (lowerInto u e t) (u.lower e)
  | .unknown, t, unfolds, _ => ⟨unfolds.follows, .ok ⟨.inl rfl, t.treeNone⟩⟩
  | .named name, _, unfolds, space =>
    spellsName (fun c => .nominal (some c)) (fun c => .nominal (some c)) (u.requireClass name) unfolds
      (fun _ => ⟨rfl, rfl⟩) space
  | .union members, _, unfolds, space => by
    have ms := lowerAllSpells u members unfolds ((callFills .union _).space space)
    exact spellsCall .union Ty.unionOf ms.follows ms.agrees
      (fun _ _ same => ⟨same.1, congrArg Ty.unionOf same.2⟩) space
  | .tuple elements, _, unfolds, space => by
    have es := lowerAllSpells u elements unfolds ((callFills (.tuple _) _).space space)
    exact spellsCall (.tuple _) (Ty.tuple _) es.follows es.agrees
      (fun _ _ same => ⟨same.1, congrArg (Ty.tuple _) same.2⟩) space
  | .collection name element, t, unfolds, space => by
    rw [lowerInto] at space ⊢
    rw [Universe.lower]
    cases found : u.requireClass name with
    | error e => exact ⟨unfolds.follows, .error e⟩
    | ok c =>
      rw [found] at space
      have inner := lowerSpells u element unfolds ((callFills (.collection (some c)) _).space space)
      exact spellsCall (.collection (some c)) (Ty.collection (some c)) inner.follows inner.agrees
        (fun _ _ same => ⟨by simpa [Request.slots] using same.1, congrArg (Ty.collection _) same.2⟩) space
  | .aliased name, _, unfolds, space =>
    spellsName .reference Ty.reference (u.requireAlias name) unfolds (fun _ => ⟨rfl, rfl⟩) space

theorem lowerAllSpells (u : Universe) : ∀ (es : List TypeExpr) {t : TypeTable}, t.Unfolds →
    (lowerAllInto u es t).2.HasSpace → SpellsAll t (lowerAllInto u es t) (u.lowerAll es)
  | [], _, unfolds, _ => ⟨unfolds.follows, .ok ⟨nofun, rfl⟩⟩
  | e :: rest, t, unfolds, space => by
    have room : (lowerInto u e t).2.HasSpace :=
      (andThenFills (.refl _) fun _ v => andThenFills (lowerAllFills u rest v) fun _ w => .refl w).space space
    refine spellsCons (lowerSpells u e unfolds room) fun s head => ?_
    rw [lowerAllInto, andThenOk head] at space
    exact lowerAllSpells u rest (lowerSpells u e unfolds room).follows.unfolds
      ((andThenFills (.refl _) fun _ w => .refl w).space space)
end

end GradualTypes.SharedUniverse
