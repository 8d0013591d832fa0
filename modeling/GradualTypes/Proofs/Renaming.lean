import GradualTypes.Proofs.UnionMembers
import GradualTypes.Proofs.Unrolling
import Mathlib.Data.List.Count
import Mathlib.Logic.Equiv.Defs

/-! Renaming. Classes and references may be given other ids; the members of a union then stand in another
order, so that a renamed union is built anew. As long as no two ids become one, nothing else happens: no
union falls together, the same references occur, and what they are unrolled to is renamed alike. -/
namespace GradualTypes

structure Renaming where
  classes : Equiv.Perm ClassId
  references : Equiv.Perm RefId

def Renaming.back (n : Renaming) : Renaming := ⟨n.classes.symm, n.references.symm⟩

namespace Ty

mutual
def rename (n : Renaming) : Ty → Ty
  | unknown => unknown
  | missing => missing
  | reference r => reference (n.references r)
  | nominal c => nominal (c.map n.classes)
  | collection c element => collection (c.map n.classes) (rename n element)
  | tuple c elements => tuple (c.map n.classes) (renameAll n elements)
  | union members => unionOf (renameAll n members)

def renameAll (n : Renaming) : List Ty → List Ty
  | [] => []
  | t :: ts => rename n t :: renameAll n ts
end

variable {n : Renaming} {t u : Ty} {ts : List Ty}

theorem renameAllMap (n : Renaming) (ts : List Ty) : renameAll n ts = ts.map (rename n) := by
  induction ts with
  | nil => rfl
  | cons t ts ih => simp [renameAll, ih]

theorem renameUnknown : t.rename n = unknown ↔ t = unknown := by
  cases t <;> simp [rename, unionOfUnknown]

/- Members are renamed before or after a union is built of them. -/
theorem renameUnionOf (n : Renaming) (ts : List Ty) : (unionOf ts).rename n = unionOf (ts.map (rename n)) := by
  have members : unionOf (ts.map (rename n)) = unionOf ((canonical ts).map (rename n)) :=
    unionOfCongr fun u => by simp
  rw [members]
  rcases unionOfCases ts with node | ⟨only, single, known, same⟩
  · rw [node, rename, renameAllMap]
  · rw [same, single, List.map_singleton, unionOfSingle (renameUnknown.not.mpr known)]

/- Every union in the type is what is built of its members. -/
def Tidy (t : Ty) : Prop := ∀ ms, (union ms).Part t → unionOf ms = union ms

theorem Tidy.element {c : Option ClassId} (tidy : (collection c t).Tidy) : t.Tidy :=
  fun ms part => tidy ms (.element c part)

theorem Tidy.slot {c : Option ClassId} (tidy : (tuple c ts).Tidy) (member : t ∈ ts) : t.Tidy :=
  fun ms part => tidy ms (.slot c member part)

theorem Tidy.member (tidy : (union ts).Tidy) (member : t ∈ ts) : t.Tidy :=
  fun ms part => tidy ms (.member member part)

theorem tidyUnionOf (each : ∀ t ∈ ts, t.Tidy) : (unionOf ts).Tidy := by
  intro ms part
  rcases unionOfCases ts with node | ⟨only, single, -, same⟩
  · rw [node] at part
    cases part with
    | whole => rw [unionOfCongr fun _ => memCanonical, node]
    | member member part => exact each _ (memCanonical.mp member) ms part
  · have member : only ∈ canonical ts := by simp [single]
    exact each only (memCanonical.mp member) ms (same ▸ part)

theorem classBack (n : Renaming) (c : Option ClassId) : (c.map n.classes).map n.back.classes = c := by
  cases c <;> simp [Renaming.back]

theorem renameBack (tidy : t.Tidy) : (t.rename n).rename n.back = t := by
  induction t with
  | unknown | missing => rfl
  | reference r => simp [rename, Renaming.back]
  | nominal c => rw [rename, rename, classBack]
  | collection c element ih => rw [rename, rename, classBack, ih tidy.element]
  | tuple c es ih =>
    have each : es.map (fun e => (e.rename n).rename n.back) = es.map id :=
      List.map_congr_left fun e member => ih e member (tidy.slot member)
    rw [rename, rename, classBack, renameAllMap, renameAllMap, List.map_map]
    exact congrArg _ (each.trans (List.map_id es))
  | union ms ih =>
    have each : ms.map (fun m => (m.rename n).rename n.back) = ms.map id :=
      List.map_congr_left fun m member => ih m member (tidy.member member)
    rw [rename, renameAllMap, renameUnionOf, List.map_map]
    exact (congrArg unionOf (each.trans (List.map_id ms))).trans (tidy ms (.whole _))

theorem renameInj (left : t.Tidy) (right : u.Tidy) (same : t.rename n = u.rename n) : t = u := by
  rw [← renameBack (n := n) left, same, renameBack right]

/- No type is a member of itself. -/
theorem notMember {ms : List Ty} : union ms ∉ ms := by
  intro member
  have less := List.sizeOf_lt_of_mem member
  simp only [union.sizeOf_spec] at less
  omega

theorem canonicalNodup (ts : List Ty) : (canonical ts).Nodup := by
  refine (canonicalSorted ts).imp ?_
  rintro t u less rfl
  exact lt_irrefl _ less

/- A union built of one member is that member, and so is no union that has it as a member. -/
theorem unionOfNode {ms : List Ty} (tidy : unionOf ms = union ms) : canonical ms = ms := by
  rcases unionOfCases ms with node | ⟨only, single, -, same⟩
  · exact (union.inj (node.symm.trans tidy))
  · have member : only ∈ ms := memCanonical.mp (single ▸ List.mem_singleton_self only)
    rw [same.symm.trans tidy] at member
    exact absurd member notMember

/- A union does not fall together when its members are renamed. -/
theorem renameNode {ms : List Ty} (tidy : (union ms).Tidy) :
    (union ms).rename n = union (canonical (ms.map (rename n))) := by
  rw [rename, renameAllMap]
  rcases unionOfCases (ms.map (rename n)) with node | ⟨only, single, -, same⟩
  · exact node
  · have member : only ∈ ms.map (rename n) := memCanonical.mp (single ▸ List.mem_singleton_self only)
    obtain ⟨m, inside, rfl⟩ := List.mem_map.mp member
    have whole : (union ms).rename n = m.rename n := by rw [rename, renameAllMap, same]
    exact absurd (renameInj tidy (tidy.member inside) whole ▸ inside) notMember

theorem renameReferences (tidy : t.Tidy) : (t.rename n).references.Perm (t.references.map n.references) := by
  induction t with
  | unknown | missing | reference | nominal => exact .refl _
  | collection c element ih => exact ih tidy.element
  | tuple c es ih =>
    rw [rename, references, references, referencesAllFlat, referencesAllFlat, renameAllMap, List.flatMap_map,
      List.map_flatMap]
    exact List.Perm.flatMap_left es fun e member => ih e member (tidy.slot member)
  | union ms ih =>
    have apart : (ms.map (rename n)).Nodup := by
      refine List.Nodup.map_on (fun a left b right => renameInj (tidy.member left) (tidy.member right)) ?_
      rw [← unionOfNode (tidy ms (.whole _))]
      exact canonicalNodup ms
    have order : (canonical (ms.map (rename n))).Perm (ms.map (rename n)) :=
      (List.perm_ext_iff_of_nodup (canonicalNodup _) apart).mpr fun _ => memCanonical
    rw [renameNode tidy, references, references, referencesAllFlat, referencesAllFlat, List.map_flatMap]
    refine (order.flatMap_right references).trans ?_
    rw [List.flatMap_map]
    exact List.Perm.flatMap_left ms fun m member => ih m member (tidy.member member)

/- References are replaced before or after the type is renamed, if what they are replaced by is renamed alike. -/
theorem renameSubstitute {f g : RefId → Ty} (tidy : t.Tidy)
    (same : ∀ r ∈ t.references, g (n.references r) = (f r).rename n) :
    (t.rename n).substitute g = (t.substitute f).rename n := by
  induction t with
  | unknown | missing | nominal => rfl
  | reference r => exact same r (by simp [references])
  | collection c element ih => rw [rename, substitute, substitute, rename, ih tidy.element same]
  | tuple c es ih =>
    rw [rename, substitute, substitute, rename, renameAllMap, renameAllMap, substituteAllMap, substituteAllMap,
      List.map_map, List.map_map]
    exact congrArg _ (List.map_congr_left fun e member => ih e member (tidy.slot member) fun r occurs =>
      same r (memReferencesAll.mpr ⟨e, member, occurs⟩))
  | union ms ih =>
    have each : ms.map (fun m => (m.rename n).substitute g) = ms.map (fun m => (m.substitute f).rename n) :=
      List.map_congr_left fun m member => ih m member (tidy.member member) fun r occurs =>
        same r (memReferencesAll.mpr ⟨m, member, occurs⟩)
    have order : unionOf ((canonical (ms.map (rename n))).map (substitute g)) =
        unionOf ((ms.map (rename n)).map (substitute g)) := unionOfCongr fun u => by simp
    rw [renameNode tidy, substitute, substituteAllMap, order, substitute, substituteAllMap, renameUnionOf,
      List.map_map, List.map_map]
    exact congrArg unionOf each

end Ty

namespace ReferenceTable

/- The second table binds what the first one binds, all of it renamed. -/
structure Renames (t t' : ReferenceTable) (n : Renaming) : Prop where
  direct : ∀ r, t'.direct (n.references r) = (t.direct r).rename n
  tidy : ∀ r, (t.direct r).Tidy

variable {t t' : ReferenceTable} {n : Renaming}

/- Along renamed paths references are unrolled to renamed types, by as many openings. -/
theorem unrollRenamed (renames : t.Renames t' n) (limit : Nat) (path : List RefId) (r : RefId) :
    t'.unroll limit (path.map n.references) (n.references r) = (t.unroll limit path r).rename n ∧
      t'.openings limit (path.map n.references) (n.references r) = t.openings limit path r := by
  have count : (path.map n.references).count (n.references r) = path.count r :=
    List.count_map_of_injective path _ n.references.injective r
  by_cases closed : limit ≤ path.count r
  · rw [unrollClosed closed, unrollClosed (count ▸ closed), openingsClosed closed, openingsClosed (count ▸ closed)]
    exact ⟨rfl, rfl⟩
  · have shallow := Nat.lt_of_not_le closed
    have below : ∀ q ∈ (t.direct r).references,
        t'.unroll limit ((r :: path).map n.references) (n.references q) =
            (t.unroll limit (r :: path) q).rename n ∧
          t'.openings limit ((r :: path).map n.references) (n.references q) = t.openings limit (r :: path) q :=
      fun q mentioned => unrollRenamed renames limit (r :: path) q
    rw [unrollOpen shallow, unrollOpen (count ▸ shallow), openingsOpen shallow, openingsOpen (count ▸ shallow),
      renames.direct, ← List.map_cons]
    constructor
    · exact Ty.renameSubstitute (renames.tidy r) fun q mentioned => (below q mentioned).1
    · have order := (Ty.renameReferences (n := n) (renames.tidy r)).map
        (t'.openings limit ((r :: path).map n.references))
      rw [order.sum_eq, List.map_map]
      exact congrArg (·.sum + 1) (List.map_congr_left fun q mentioned => (below q mentioned).2)
termination_by t.room limit path
decreasing_by exact t.roomMentioned mentioned shallow

theorem resolveRenamed (renames : t.Renames t' n) {r : RefId}
    (enough : t.openings Unfolder.nestingLimit [] r ≤ Unfolder.expansionLimit) :
    t'.resolve (n.references r) = (t.resolve r).rename n := by
  obtain ⟨unrolled, openings⟩ := unrollRenamed renames Unfolder.nestingLimit [] r
  rw [t.resolveUnrolls enough, ← unrolled]
  exact t'.resolveUnrolls (openings ▸ enough)

end ReferenceTable
end GradualTypes
