import GradualTypes.Ty
import Mathlib.Data.List.Basic

/-! Type trees: induction over them, what canonical members and unions are made of, the references of a tree
with their replacement, and its parts. -/
namespace GradualTypes.Ty

@[induction_eliminator]
theorem treeInduction {motive : Ty → Prop} (unknown : motive .unknown) (missing : motive .missing)
    (reference : ∀ r, motive (.reference r)) (nominal : ∀ c, motive (.nominal c))
    (collection : ∀ c element, motive element → motive (.collection c element))
    (tuple : ∀ c elements, (∀ e ∈ elements, motive e) → motive (.tuple c elements))
    (union : ∀ members, (∀ m ∈ members, motive m) → motive (.union members)) : ∀ t, motive t
  | .unknown => unknown
  | .missing => missing
  | .reference r => reference r
  | .nominal c => nominal c
  | .collection c element =>
    collection c element
      (treeInduction unknown missing reference nominal collection tuple union element)
  | .tuple c elements =>
    tuple c elements (fun e _ =>
      treeInduction unknown missing reference nominal collection tuple union e)
  | .union members =>
    union members (fun m _ =>
      treeInduction unknown missing reference nominal collection tuple union m)
termination_by t => sizeOf t
decreasing_by
  · simp +arith
  · have := List.sizeOf_lt_of_mem ‹e ∈ elements›
    simp only [Ty.tuple.sizeOf_spec]
    omega
  · have := List.sizeOf_lt_of_mem ‹m ∈ members›
    simp only [Ty.union.sizeOf_spec]
    omega

theorem memInsertMember {t u : Ty} {ts : List Ty} : u ∈ insertMember t ts ↔ u = t ∨ u ∈ ts := by
  induction ts with
  | nil => simp [insertMember]
  | cons v vs ih =>
    by_cases same : t = v
    · simp [insertMember, same]
    · by_cases less : t.code < v.code
      · simp [insertMember, same, less]
      · simp only [insertMember, same, less, if_false, List.mem_cons, ih]
        tauto

@[simp] theorem memCanonical {u : Ty} {ts : List Ty} : u ∈ canonical ts ↔ u ∈ ts := by
  induction ts with
  | nil => simp [canonical]
  | cons t ts ih => simp [canonical, memInsertMember, ih]

/- Building a union gives the union of the canonical members, or the one known member. -/
theorem unionOfCases (ms : List Ty) :
    unionOf ms = union (canonical ms) ∨
      ∃ only, canonical ms = [only] ∧ only ≠ unknown ∧ unionOf ms = only := by
  unfold unionOf
  split
  · rename_i only single
    by_cases known : only = unknown
    · left
      simp [known, single]
    · right
      exact ⟨only, single, known, by simp [known]⟩
  · left
    rfl

theorem unionOfSingle {t : Ty} (known : t ≠ unknown) : unionOf [t] = t := by
  simp [unionOf, canonical, insertMember, known]

theorem unionOfUnknown {ms : List Ty} : unionOf ms ≠ unknown := by
  rcases unionOfCases ms with node | ⟨only, -, known, same⟩
  · simp [node]
  · simpa [same] using known

theorem allGroundIff {ts : List Ty} : allGround ts = true ↔ ∀ t ∈ ts, t.isGround = true := by
  induction ts with
  | nil => simp [allGround]
  | cons t ts ih => simp [allGround, ih]

theorem groundUnionOf {ms : List Ty} (ground : ∀ m ∈ ms, m.isGround = true) :
    (unionOf ms).isGround = true := by
  rcases unionOfCases ms with node | ⟨only, single, -, same⟩
  · rw [node, isGround, allGroundIff]
    intro m member
    exact ground m (memCanonical.mp member)
  · have member : only ∈ canonical ms := by simp [single]
    rw [same]
    exact ground only (memCanonical.mp member)

mutual
/- The references that occur in a type, from left to right and as often as they occur. -/
def references : Ty → List RefId
  | unknown => []
  | missing => []
  | reference r => [r]
  | nominal _ => []
  | collection _ element => references element
  | tuple _ elements => referencesAll elements
  | union members => referencesAll members

def referencesAll : List Ty → List RefId
  | [] => []
  | t :: ts => references t ++ referencesAll ts
end

mutual
/- Puts the answer for every reference in its place and builds the unions around them anew. -/
def substitute (answer : RefId → Ty) : Ty → Ty
  | unknown => unknown
  | missing => missing
  | reference r => answer r
  | nominal c => nominal c
  | collection c element => collection c (substitute answer element)
  | tuple c elements => tuple c (substituteAll answer elements)
  | union members => unionOf (substituteAll answer members)

def substituteAll (answer : RefId → Ty) : List Ty → List Ty
  | [] => []
  | t :: ts => substitute answer t :: substituteAll answer ts
end

theorem referencesAllFlat (ts : List Ty) : referencesAll ts = ts.flatMap references := by
  induction ts with
  | nil => rfl
  | cons t ts ih => simp [referencesAll, ih]

theorem memReferencesAll {r : RefId} {ts : List Ty} : r ∈ referencesAll ts ↔ ∃ t ∈ ts, r ∈ t.references := by
  rw [referencesAllFlat, List.mem_flatMap]

theorem substituteAllMap (answer : RefId → Ty) (ts : List Ty) :
    substituteAll answer ts = ts.map (substitute answer) := by
  induction ts with
  | nil => rfl
  | cons t ts ih => simp [substituteAll, ih]

/- A type is ground exactly when no reference occurs in it. -/
theorem groundReferences (t : Ty) : t.isGround = true ↔ t.references = [] := by
  induction t with
  | unknown | missing | nominal => simp [isGround, references]
  | reference r => simp [isGround, references]
  | collection c element ih => simpa [isGround, references] using ih
  | tuple c elements ih =>
    rw [isGround, allGroundIff, references, referencesAllFlat, List.flatMap_eq_nil_iff]
    exact forall₂_congr ih
  | union members ih =>
    rw [isGround, allGroundIff, references, referencesAllFlat, List.flatMap_eq_nil_iff]
    exact forall₂_congr ih

/- A replacement depends only on the answers for the references that occur. -/
theorem substituteCongr {f g : RefId → Ty} (t : Ty) (same : ∀ r ∈ t.references, f r = g r) :
    t.substitute f = t.substitute g := by
  induction t with
  | unknown | missing | nominal => rfl
  | reference r => exact same r (by simp [references])
  | collection c element ih =>
    rw [substitute, substitute, ih same]
  | tuple c elements ih =>
    rw [substitute, substitute, substituteAllMap, substituteAllMap]
    congr 1
    apply List.map_congr_left
    intro e member
    exact ih e member fun r occurs => same r (memReferencesAll.mpr ⟨e, member, occurs⟩)
  | union members ih =>
    rw [substitute, substitute, substituteAllMap, substituteAllMap]
    congr 1
    apply List.map_congr_left
    intro m member
    exact ih m member fun r occurs => same r (memReferencesAll.mpr ⟨m, member, occurs⟩)

/- One type stands somewhere inside another one, or is the whole of it. -/
inductive Part : Ty → Ty → Prop where
  | whole (t : Ty) : Part t t
  | element {p element : Ty} (c : Option ClassId) (part : Part p element) : Part p (.collection c element)
  | slot {p e : Ty} {elements : List Ty} (c : Option ClassId) (member : e ∈ elements) (part : Part p e) :
    Part p (.tuple c elements)
  | member {p m : Ty} {members : List Ty} (member : m ∈ members) (part : Part p m) : Part p (.union members)

/- Building a union adds at most the union itself to the parts of its members. -/
theorem partUnionOf {p : Ty} {ms : List Ty} (part : p.Part (unionOf ms)) :
    (∃ us, p = union us) ∨ ∃ m ∈ ms, p.Part m := by
  rcases unionOfCases ms with node | ⟨only, single, -, same⟩
  · rw [node] at part
    cases part with
    | whole => exact .inl ⟨canonical ms, rfl⟩
    | member member part => exact .inr ⟨_, memCanonical.mp member, part⟩
  · have member : only ∈ canonical ms := by simp [single]
    exact .inr ⟨only, memCanonical.mp member, same ▸ part⟩

end GradualTypes.Ty
