import GradualTypes.SlotReferences
import GradualTypes.Proofs.TableGrowth

/-! What resolving finds in a table. The answer for a reference is read off a table as a tree, from the bindings
and the nodes behind them alone. In every later table resolving makes a slot for just this tree, whatever was
made in between: it visits the same nodes in the same order and spends the same budget. -/
namespace GradualTypes

namespace SlotReferences

/- The tree of a call with its references replaced, given how those in its slots are. -/
def readRequest (expand : RefId → Unfolder → Ty × Unfolder) (part : Slot → Unfolder → Ty × Unfolder)
    (s : Unfolder) : Request → Ty × Unfolder
  | .reference r => expand r s
  | .nominal c => (.nominal c, s)
  | .collection c element =>
    let e := part element s
    (.collection c e.1, e.2)
  | .tuple c elements =>
    let es := inTurn part elements s
    (.tuple c es.1, es.2)
  | .union members =>
    let ms := inTurn part members s
    (.unionOf ms.1, ms.2)

def readWithin (t : TypeTable) (expand : RefId → Unfolder → Ty × Unfolder) : Nat → Slot → Unfolder → Ty × Unfolder
  | _, none, s => (.unknown, s)
  | 0, some _, s => (.missing, s)
  | depth + 1, some h, s =>
    match t.form h with
    | none => (.missing, s)
    | some r => readRequest expand (readWithin t expand depth) s r

def readExpansion (refs : SlotReferences) (t : TypeTable) : Nat → RefId → Unfolder → Ty × Unfolder
  | 0, _, s => (.unknown, s)
  | turns + 1, r, s =>
    if s.isSpent r then (.unknown, s)
    else
      let u := readWithin t (refs.readExpansion t turns) t.size (refs.direct r) (s.enter r)
      (u.1, u.2.leave r (s.depth r))

/- The answer for a reference, read off a table. -/
def answerIn (refs : SlotReferences) (t : TypeTable) (r : RefId) : Ty :=
  (refs.readExpansion t Unfolder.expansionLimit r .start).1

end SlotReferences

section
variable {α β : Type}

/- A step in a resolution only adds to the table. -/
def Growing (step : α → Unfolding → β × Unfolding) : Prop := ∀ a (s : Unfolding), s.types.Fills (step a s).2.types

theorem Growing.inTurn {step : α → Unfolding → β × Unfolding} (growing : Growing step) :
    Growing (inTurn step) := by
  intro row
  induction row with
  | nil => exact fun _ => .refl _
  | cons a rest ih => exact fun s => (growing a s).trans (ih _)

end

namespace SlotReferences

/- A resolution has come to what is read, in a later table. -/
structure Reads (s : Unfolding) (made : Slot × Unfolding) (read : Ty × Unfolder) : Prop where
  gives : s.types.Gives (made.1, made.2.types) read.1
  unfolder : made.2.unfolder = read.2

structure ReadsAll (s : Unfolding) (made : List Slot × Unfolding) (read : List Ty × Unfolder) : Prop where
  follows : s.types.Follows made.2.types
  stands : ∀ slot ∈ made.1, made.2.types.Stands slot
  trees : made.1.map made.2.types.tree = read.1
  unfolder : made.2.unfolder = read.2

/- A step comes to what is read off a table, in every table that follows it and has space. -/
def ReadsFrom (base : TypeTable) (step : Unfolding → Slot × Unfolding) (read : Unfolder → Ty × Unfolder) : Prop :=
  ∀ s, base.Follows s.types → (step s).2.types.HasSpace → Reads s (step s) (read s.unfolder)

/- Nothing is made. -/
theorem readsSame {s : Unfolding} {slot : Slot} (unfolds : s.types.Unfolds) (stands : s.types.Stands slot) :
    Reads s (slot, s) (s.types.tree slot, s.unfolder) :=
  ⟨⟨unfolds.follows, stands, rfl⟩, rfl⟩

/- A call is made with the slots that were read. -/
theorem readsMaking {s u : Unfolding} {r : Request} (follows : s.types.Follows u.types)
    (stands : ∀ slot ∈ r.slots, u.types.Stands slot) (space : (u.types.answer r).2.HasSpace) :
    Reads s (u.making (u.types.answer r)) (r.tree u.types.tree, u.unfolder) := by
  have gives := follows.unfolds.gives stands space
  exact ⟨⟨follows.trans gives.follows, gives.stands, gives.tree⟩, rfl⟩

section
variable {base : TypeTable} {part : Slot → Unfolding → Slot × Unfolding} {readPart : Slot → Unfolder → Ty × Unfolder}

theorem inTurnReads (growing : Growing part) {slots : List Slot}
    (reads : ∀ slot ∈ slots, ReadsFrom base (part slot) (readPart slot)) {s : Unfolding}
    (follows : base.Follows s.types) (space : (inTurn part slots s).2.types.HasSpace) :
    ReadsAll s (inTurn part slots s) (inTurn readPart slots s.unfolder) := by
  induction slots generalizing s with
  | nil => exact ⟨follows.unfolds.follows, nofun, rfl, rfl⟩
  | cons slot rest ih =>
    have first := reads slot (by simp) s follows ((growing.inTurn rest _).space space)
    have others := ih (fun slot member => reads slot (by simp [member])) (follows.trans first.gives.follows) space
    have head : (inTurn part rest (part slot s).2).2.types.tree (part slot s).1 = (readPart slot s.unfolder).1 :=
      (others.follows.tree first.gives.stands).trans first.gives.tree
    refine ⟨first.gives.follows.trans others.follows, ?_, ?_, ?_⟩
    · exact List.forall_mem_cons.mpr ⟨others.follows.stands first.gives.stands, others.stands⟩
    · rw [inTurn, inTurn, List.map_cons, head, others.trees, first.unfolder]
    · rw [inTurn, inTurn, others.unfolder, first.unfolder]

variable {expand : RefId → Unfolding → Slot × Unfolding} {read : RefId → Unfolder → Ty × Unfolder}

theorem unfoldNodeGrows (growing : Growing expand) (parts : Growing part) (h : Handle) (s : Unfolding) (n : Node) :
    s.types.Fills (unfoldNode expand part h s n).2.types := by
  cases n with
  | reference r => exact growing r s
  | nominal c => exact .refl _
  | collection c element => exact (parts element s).trans (TypeTable.answerFills _ (.collection c _))
  | tuple c elements => exact (parts.inTurn _ s).trans (TypeTable.answerFills _ (.tuple c _))
  | union members => exact (parts.inTurn _ s).trans (TypeTable.answerFills _ (.union _))

theorem unfoldGrows (growing : Growing expand) (depth : Nat) : Growing (unfoldWithin expand depth) := by
  induction depth with
  | zero => exact fun slot s => by cases slot <;> exact .refl _
  | succ depth ih =>
    intro slot s
    cases slot with
    | none => exact .refl _
    | some h =>
      rw [unfoldWithin]
      split
      · exact .refl _
      · exact unfoldNodeGrows growing ih h s _

theorem expandGrows (refs : SlotReferences) (turns : Nat) : Growing (refs.expandWithin turns) := by
  induction turns with
  | zero => exact fun r s => .refl _
  | succ turns ih =>
    intro r s
    rw [expandWithin]
    split
    · exact .refl _
    · exact unfoldGrows ih _ _ (s.enter r)

/- A node is unfolded as it is read if its parts are. -/
theorem unfoldNodeReads (growing : Growing part) {s : Unfolding} (follows : base.Follows s.types)
    (reads : ∀ r, ReadsFrom base (expand r) (read r)) {h : Handle} {n : Node} (found : s.types.lookup h = some n)
    (inside : ∀ slot ∈ (s.types.read n).slots, ReadsFrom base (part slot) (readPart slot))
    (space : (unfoldNode expand part h s n).2.types.HasSpace) :
    Reads s (unfoldNode expand part h s n) (readRequest read readPart s.unfolder (s.types.read n)) := by
  have form := TypeTable.formAt found
  cases n with
  | reference r => exact reads r s follows space
  | nominal c =>
    have stands : s.types.Stands (some h) := .inr (.inr ⟨h, _, rfl, form⟩)
    have same := readsSame follows.unfolds stands
    rw [follows.unfolds.treeForm form] at same
    exact same
  | collection c element =>
    have room := (TypeTable.answerFills _ (.collection c _)).space space
    have e := inside element List.mem_cons_self s follows room
    have made := readsMaking (r := .collection c _) e.gives.follows (by simpa [Request.slots] using e.gives.stands)
      space
    have tree : (part element s).2.types.tree (part element s).1 = (readPart element s.unfolder).1 := e.gives.tree
    rw [Request.tree, tree, e.unfolder] at made
    exact made
  | tuple c elements =>
    have room := (TypeTable.answerFills _ (.tuple c _)).space space
    have es : ReadsAll s (inTurn part (s.types.list elements) s) _ := inTurnReads growing inside follows room
    have made := readsMaking (r := .tuple c _) es.follows es.stands space
    rw [Request.tree, es.trees, es.unfolder] at made
    exact made
  | union members =>
    have room := (TypeTable.answerFills _ (.union _)).space space
    have ms : ReadsAll s (inTurn part (s.types.list members) s) _ := inTurnReads growing inside follows room
    have made := readsMaking (r := .union _) ms.follows ms.stands space
    rw [Request.tree, ms.trees, ms.unfolder] at made
    exact made

/- There is nothing behind a slot. -/
theorem leafReads (unfolds : base.Unfolds) {slot : Slot} (leaf : slot = none ∨ slot = some .overflow)
    (depth depth' : Nat) : ReadsFrom base (unfoldWithin expand depth slot) (readWithin base read depth' slot) := by
  intro s follows _
  rcases leaf with rfl | rfl
  · have same := readsSame follows.unfolds (.inl rfl)
    rw [TypeTable.treeNone] at same
    cases depth <;> cases depth' <;> exact same
  · have same := readsSame follows.unfolds (.inr (.inl rfl))
    rw [follows.unfolds.sound.treeMissing] at same
    have kept : unfoldWithin expand depth (some .overflow) s = (some .overflow, s) := by
      cases depth with
      | zero => rfl
      | succ depth => rw [unfoldWithin, follows.unfolds.sound.kept.overflowFree]
    have missing : readWithin base read depth' (some .overflow) s.unfolder = (.missing, s.unfolder) := by
      cases depth' with
      | zero => rfl
      | succ depth' => rw [readWithin, unfolds.sound.formOverflow]
    rwa [kept, missing]

theorem unfoldReads (growing : Growing expand) (reads : ∀ r, ReadsFrom base (expand r) (read r))
    (unfolds : base.Unfolds) (depth : Nat) : ∀ (depth' : Nat) (slot : Slot), base.Stands slot →
      (base.tree slot).height ≤ depth → (base.tree slot).height ≤ depth' →
        ReadsFrom base (unfoldWithin expand depth slot) (readWithin base read depth' slot) := by
  induction depth with
  | zero =>
    intro depth' slot stands low _
    rcases stands with unknown | overflow | ⟨h, r, rfl, form⟩
    · exact leafReads unfolds (.inl unknown) 0 depth'
    · exact leafReads unfolds (.inr overflow) 0 depth'
    · exact absurd low (Nat.not_le_of_lt (unfolds.nodeHigh form))
  | succ depth ih =>
    intro depth' slot stands low low'
    rcases stands with unknown | overflow | ⟨h, r, rfl, form⟩
    · exact leafReads unfolds (.inl unknown) _ depth'
    · exact leafReads unfolds (.inr overflow) _ depth'
    · intro s follows space
      obtain ⟨n, found, rfl⟩ := Option.map_eq_some_iff.mp (follows.form form)
      obtain ⟨depth', rfl⟩ := Nat.exists_eq_succ_of_ne_zero
        (Nat.ne_of_gt (Nat.lt_of_lt_of_le (unfolds.nodeHigh form) low'))
      rw [unfoldWithin, found] at space ⊢
      rw [readWithin, form]
      refine unfoldNodeReads (unfoldGrows growing depth) follows reads found (fun slot inside => ?_) space
      have lower := unfolds.partLower form inside
      exact ih depth' slot (unfolds.parts h _ form slot inside) (by omega) (by omega)

end

/- What references are bound to stands in the table. -/
def Stand (refs : SlotReferences) (t : TypeTable) : Prop := ∀ r s, refs.binding? r = some s → t.Stands s

theorem Stand.direct {refs : SlotReferences} {t : TypeTable} (stand : refs.Stand t) (r : RefId) :
    t.Stands (refs.direct r) := by
  rw [SlotReferences.direct]
  cases bound : refs.binding? r with
  | none => exact .inl rfl
  | some s => exact stand r s bound

variable {refs : SlotReferences} {base : TypeTable}

theorem expandReads (unfolds : base.Unfolds) (stand : refs.Stand base) (turns : Nat) (r : RefId) :
    ReadsFrom base (refs.expandWithin turns r) (refs.readExpansion base turns r) := by
  have cut : ∀ s : Unfolding, base.Follows s.types → Reads s (none, s) (.unknown, s.unfolder) := by
    intro s follows
    have same := readsSame follows.unfolds (.inl rfl)
    rwa [TypeTable.treeNone] at same
  induction turns generalizing r with
  | zero => exact fun s follows _ => cut s follows
  | succ turns ih =>
    intro s follows space
    rw [expandWithin] at space ⊢
    rw [readExpansion]
    by_cases spent : s.unfolder.isSpent r
    · rw [if_pos spent, if_pos spent]
      exact cut s follows
    · rw [if_neg spent] at space ⊢
      rw [if_neg spent]
      have stands := stand.direct r
      have low : (base.tree (refs.direct r)).height ≤ s.types.size := by
        rw [← follows.tree stands]
        exact s.types.treeHeight _
      have inner := unfoldReads (expandGrows refs turns) ih unfolds s.types.size base.size (refs.direct r) stands low
        (base.treeHeight _) (s.enter r) follows space
      exact ⟨inner.gives, congrArg (fun u : Unfolder => u.leave r (s.unfolder.depth r)) inner.unfolder⟩

theorem resolveGrows (refs : SlotReferences) (r : RefId) (t : TypeTable) : t.Fills (refs.resolve r t).2 :=
  expandGrows refs _ r (.start t)

/-- In every later table a reference gets a slot for the same tree. -/
theorem resolveReads (unfolds : base.Unfolds) (stand : refs.Stand base) {t : TypeTable}
    (follows : base.Follows t) (r : RefId) (space : (refs.resolve r t).2.HasSpace) :
    t.Gives (refs.resolve r t) (refs.answerIn base r) :=
  (expandReads unfolds stand _ r (.start t) follows space).gives

/-! Answers hold no references. -/

def GroundAnswers (read : α → Unfolder → Ty × Unfolder) : Prop := ∀ a s, (read a s).1.isGround = true

theorem inTurnGround {read : Slot → Unfolder → Ty × Unfolder} (ground : GroundAnswers read) (slots : List Slot)
    (s : Unfolder) : ∀ t ∈ (inTurn read slots s).1, t.isGround = true := by
  induction slots generalizing s with
  | nil => nofun
  | cons slot rest ih => exact List.forall_mem_cons.mpr ⟨ground slot s, ih _⟩

theorem readGround {expand : RefId → Unfolder → Ty × Unfolder} (ground : GroundAnswers expand) (t : TypeTable)
    (depth : Nat) : GroundAnswers (readWithin t expand depth) := by
  induction depth with
  | zero => intro slot s; cases slot <;> rfl
  | succ depth ih =>
    intro slot s
    cases slot with
    | none => rfl
    | some h =>
      rw [readWithin]
      cases t.form h with
      | none => rfl
      | some r =>
        cases r with
        | reference r => exact ground r s
        | nominal c => rfl
        | collection c element => exact ih element s
        | tuple c elements => exact Ty.allGroundIff.mpr (inTurnGround ih elements s)
        | union members => exact Ty.groundUnionOf (inTurnGround ih members s)

theorem expansionGround (refs : SlotReferences) (t : TypeTable) (turns : Nat) :
    GroundAnswers (refs.readExpansion t turns) := by
  induction turns with
  | zero => exact fun _ _ => rfl
  | succ turns ih =>
    intro r s
    rw [readExpansion]
    split
    · rfl
    · exact readGround ih t _ _ _

theorem answerGround (refs : SlotReferences) (t : TypeTable) (r : RefId) : (refs.answerIn t r).isGround = true :=
  expansionGround refs t _ r .start

end SlotReferences
end GradualTypes
