import GradualTypes.TypeExpr

/-! The aliases of a manifest. Each name has one body, and names keep the order in which they came first. -/
namespace GradualTypes

structure AliasMap where
  entries : List (String × TypeExpr)
  distinct : (entries.map Prod.fst).Nodup
  deriving Repr

namespace AliasMap

def empty : AliasMap := ⟨[], List.nodup_nil⟩

/- A name given again keeps its place and takes the new body. -/
def putEntry (name : String) (body : TypeExpr) : List (String × TypeExpr) → List (String × TypeExpr)
  | [] => [(name, body)]
  | a :: rest => if a.1 = name then (name, body) :: rest else a :: putEntry name body rest

theorem putEntryKeys (name : String) (body : TypeExpr) (entries : List (String × TypeExpr)) :
    (putEntry name body entries).map Prod.fst =
      if name ∈ entries.map Prod.fst then entries.map Prod.fst
      else entries.map Prod.fst ++ [name] := by
  induction entries with
  | nil => simp [putEntry]
  | cons a rest ih =>
    by_cases same : a.1 = name
    · simp [putEntry, same]
    · have other : name ≠ a.1 := fun h => same h.symm
      simp only [putEntry, same, if_false, List.map_cons, ih, List.mem_cons, other, false_or]
      split <;> simp

theorem putEntryDistinct (name : String) (body : TypeExpr) {entries : List (String × TypeExpr)}
    (distinct : (entries.map Prod.fst).Nodup) :
    ((putEntry name body entries).map Prod.fst).Nodup := by
  rw [putEntryKeys]
  split
  · exact distinct
  · rename_i fresh
    rw [List.nodup_append]
    refine ⟨distinct, by simp, ?_⟩
    intro k known l last same
    rw [List.mem_singleton] at last
    exact fresh (last ▸ same ▸ known)

def put (m : AliasMap) (name : String) (body : TypeExpr) : AliasMap :=
  ⟨putEntry name body m.entries, putEntryDistinct name body m.distinct⟩

/- Aliases lie inside two objects, the manifest and their own. -/
def putFields? (m : AliasMap) : List (Option String × Json) → Option AliasMap
  | [] => some m
  | (key, v) :: rest => do
    let name ← key
    let body ← TypeExpr.ofJson? 2 v
    (m.put name body).putFields? rest

def ofJson? : Json → Option AliasMap
  | .object fields => empty.putFields? fields
  | _ => none

def toJson (m : AliasMap) : Json := .object (m.entries.map (fun a => (some a.1, a.2.toJson)))

end AliasMap

end GradualTypes
