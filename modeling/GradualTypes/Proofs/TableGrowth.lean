import GradualTypes.Proofs.HandleTrees

/-! How tables grow. Calls only add nodes: if no shard of a table is full, then none was full earlier. A table
that follows another one has all its trees. A tree is higher than those of its parts, and never higher than
the table has nodes. -/
namespace GradualTypes

namespace Ty

mutual
/- How many nodes follow each other on the longest branch. -/
def height : Ty → Nat
  | unknown => 0
  | missing => 0
  | reference _ => 1
  | nominal _ => 1
  | collection _ element => height element + 1
  | tuple _ elements => heights elements + 1
  | union members => heights members + 1

def heights : List Ty → Nat
  | [] => 0
  | t :: ts => max (height t) (heights ts)
end

theorem heightsLe {ts : List Ty} {d : Nat} : heights ts ≤ d ↔ ∀ t ∈ ts, t.height ≤ d := by
  induction ts with
  | nil => simp [heights]
  | cons t ts ih => simp [heights, ih]

theorem heightUnionOf {ms : List Ty} {d : Nat} (low : ∀ m ∈ ms, m.height ≤ d) : (unionOf ms).height ≤ d + 1 := by
  have members : ∀ m ∈ canonical ms, m.height ≤ d := fun m member => low m (memCanonical.mp member)
  rcases unionOfCases ms with node | ⟨only, single, -, same⟩
  · rw [node, height]
    exact Nat.succ_le_succ (heightsLe.mpr members)
  · rw [same]
    exact Nat.le_succ_of_le (members only (by simp [single]))

end Ty

namespace Request

theorem treeHeight {r : Request} {part : Slot → Ty} {d : Nat} (low : ∀ s ∈ r.slots, (part s).height ≤ d) :
    (r.tree part).height ≤ d + 1 := by
  cases r with
  | reference r => simp [tree, Ty.height]
  | nominal c => simp [tree, Ty.height]
  | collection c element => exact Nat.succ_le_succ (low element (by simp [slots]))
  | tuple c elements => exact Nat.succ_le_succ (Ty.heightsLe.mpr (List.forall_mem_map.mpr low))
  | union members => exact Ty.heightUnionOf (List.forall_mem_map.mpr low)

end Request

namespace TypeTable

theorem treeNone (t : TypeTable) : t.tree none = .unknown := t.treeWithinNone _

theorem Sound.treeMissing {t : TypeTable} (sound : t.Sound) : t.tree (some .overflow) = .missing :=
  sound.treeOverflow _

theorem treeWithinHeight (t : TypeTable) (d : Nat) (s : Slot) : (t.treeWithin d s).height ≤ d := by
  induction d generalizing s with
  | zero => cases s <;> simp [treeWithin, Ty.height]
  | succ d ih =>
    cases s with
    | none => simp [treeWithin, Ty.height]
    | some h =>
      cases found : t.form h with
      | none =>
        have absent : t.lookup h = none := Option.map_eq_none_iff.mp found
        simp [treeWithin, absent, Ty.height]
      | some r =>
        rw [treeWithinForm found]
        exact Request.treeHeight fun s _ => ih s

theorem treeHeight (t : TypeTable) (s : Slot) : (t.tree s).height ≤ t.size := t.treeWithinHeight t.size s

theorem formAt {t : TypeTable} {h : Handle} {n : Node} (found : t.lookup h = some n) :
    t.form h = some (t.read n) := by
  rw [form, found, Option.map_some]

/- The tree of a part is lower than that of the node it is in. -/
theorem Unfolds.partLower {t : TypeTable} (unfolds : t.Unfolds) {h : Handle} {r : Request}
    (found : t.form h = some r) {s : Slot} (part : s ∈ r.slots) :
    (t.tree s).height < (t.tree (some h)).height := by
  rw [unfolds.treeForm found]
  cases r with
  | reference r => simp [Request.slots] at part
  | nominal c => simp [Request.slots] at part
  | collection c element =>
    obtain rfl := List.mem_singleton.mp part
    exact Nat.lt_succ_self _
  | tuple c elements =>
    exact Nat.lt_succ_of_le (Ty.heightsLe.mp (Nat.le_refl _) _ (List.mem_map_of_mem part))
  | union members =>
    have inside : ∀ m ∈ members, t.Stands m := unfolds.parts h _ found
    rw [Request.unionTree unfolds.apart inside (unfolds.plain h _ found)]
    exact Nat.lt_succ_of_le
      (Ty.heightsLe.mp (Nat.le_refl _) _ (Ty.memCanonical.mpr (List.mem_map_of_mem part)))

theorem Unfolds.nodeHigh {t : TypeTable} (unfolds : t.Unfolds) {h : Handle} {r : Request}
    (found : t.form h = some r) : 0 < (t.tree (some h)).height := by
  rw [unfolds.treeForm found, Request.fullTreeSame unfolds.apart (unfolds.parts h r found) (unfolds.plain h r found)]
  cases r <;> exact Nat.succ_pos _

/- No shard has lost a node. -/
def Fills (t later : TypeTable) : Prop := ∀ k, (t.shard k).nodes.length ≤ (later.shard k).nodes.length

/- No shard is full. -/
def HasSpace (t : TypeTable) : Prop := ∀ k, (t.shard k).nodes.length < Handle.places.toNat

instance (t : TypeTable) : Decidable t.HasSpace :=
  inferInstanceAs (Decidable (∀ k, (t.shard k).nodes.length < Handle.places.toNat))

theorem Fills.refl (t : TypeTable) : t.Fills t := fun _ => Nat.le_refl _

theorem Fills.trans {a b c : TypeTable} (first : a.Fills b) (second : b.Fills c) : a.Fills c :=
  fun k => Nat.le_trans (first k) (second k)

theorem Fills.space {t later : TypeTable} (fills : t.Fills later) (space : later.HasSpace) : t.HasSpace :=
  fun k => Nat.lt_of_le_of_lt (fills k) (space k)

theorem internFills (t : TypeTable) (n : Node) : t.Fills (t.intern n).2 := by
  intro k
  simp only [intern]
  split
  · exact Nat.le_refl _
  · split
    · exact Nat.le_refl _
    · rw [shardPush]
      split
      · rename_i same
        simp [Shard.push, same]
      · exact Nat.le_refl _

theorem answerFills (t : TypeTable) (r : Request) : t.Fills (t.answer r).2 := by
  cases single : r.single? with
  | some h =>
    rw [answerSingle single]
    exact .refl t
  | none =>
    rw [answerNode single]
    exact fun k => internFills (t.withLists (r.node t.lists).2) (r.node t.lists).1 k

/- A later table, in which all trees are as they were. -/
structure Follows (t later : TypeTable) : Prop where
  unfolds : later.Unfolds
  retains : t.Retains later

theorem Unfolds.follows {t : TypeTable} (unfolds : t.Unfolds) : t.Follows t := ⟨unfolds, .refl t⟩

theorem Follows.trans {a b c : TypeTable} (first : a.Follows b) (second : b.Follows c) : a.Follows c :=
  ⟨second.unfolds, first.retains.trans second.retains⟩

theorem Follows.stands {t later : TypeTable} (follows : t.Follows later) {s : Slot} (old : t.Stands s) :
    later.Stands s := follows.retains.stands s old

theorem Follows.tree {t later : TypeTable} (follows : t.Follows later) {s : Slot} (old : t.Stands s) :
    later.tree s = t.tree s := follows.retains.tree s old

theorem Follows.form {t later : TypeTable} (follows : t.Follows later) {h : Handle} {r : Request}
    (found : t.form h = some r) : later.form h = some r := by
  obtain ⟨n, there, read⟩ := Option.map_eq_some_iff.mp found
  rw [TypeTable.form, follows.retains.keeps.nodes h n there, Option.map_some, ← read,
    readCongr fun id listed => follows.retains.keeps.lists h n id there listed]

/- A slot was made in a later table, for a tree. -/
structure Gives (t : TypeTable) (made : Slot × TypeTable) (tree : Ty) : Prop where
  follows : t.Follows made.2
  stands : made.2.Stands made.1
  tree : made.2.tree made.1 = tree

/- What a call does unless its shard is full. -/
theorem Unfolds.gives {t : TypeTable} (unfolds : t.Unfolds) {r : Request} (parts : ∀ s ∈ r.slots, t.Stands s)
    (space : (t.answer r).2.HasSpace) : t.Gives (some (t.answer r).1, (t.answer r).2) (r.tree t.tree) := by
  have serves : Serves (t, r.slots.filterMap id) := by
    refine ⟨unfolds, fun h member => ?_⟩
    obtain ⟨s, inside, rfl⟩ := List.mem_filterMap.mp member
    exact parts _ inside
  have given : Given (r.slots.filterMap id) r := by
    intro s inside
    cases s with
    | none => exact .inl rfl
    | some h => exact .inr (.inr ⟨h, List.mem_filterMap.mpr ⟨some h, inside, rfl⟩, rfl⟩)
  have room : t.HasRoom r := fun _ => .inr ((answerFills t r).space space _)
  obtain ⟨after, retains, tree, -⟩ := serves.call given room
  exact ⟨⟨after.unfolds, retains⟩, after.stands _ List.mem_cons_self, tree⟩

end TypeTable
end GradualTypes
