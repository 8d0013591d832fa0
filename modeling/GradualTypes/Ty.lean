import GradualTypes.ClassTable

/-! Types. A union is kept in one form only, its members in the order of their codes and none of them
twice, so that equal types are equal trees. Unknown has the least code and stands first. -/
namespace GradualTypes

abbrev RefId := Nat

inductive Ty where
  | unknown
  -- A handle that leads to no type.
  | missing
  -- A type to be looked up under a name.
  | reference (r : RefId)
  -- A class, if its declaration was found.
  | nominal (c : Option ClassId)
  -- A container with one element type.
  | collection (c : Option ClassId) (element : Ty)
  | tuple (c : Option ClassId) (elements : List Ty)
  | union (members : List Ty)
  deriving Repr

namespace Ty

instance : Inhabited Ty := ⟨unknown⟩

def slotCode : Option ClassId → Nat
  | none => 0
  | some c => c + 1

mutual
/- Writes the code of a type in front of other codes. No code is the beginning of another one. -/
def codeOnto : Ty → List Nat → List Nat
  | unknown, rest => 0 :: rest
  | missing, rest => 1 :: rest
  | reference r, rest => 2 :: r :: rest
  | nominal c, rest => 3 :: slotCode c :: rest
  | collection c element, rest => 4 :: slotCode c :: codeOnto element rest
  | tuple c elements, rest => 5 :: slotCode c :: codesOnto elements rest
  | union members, rest => 6 :: codesOnto members rest

def codesOnto : List Ty → List Nat → List Nat
  | [], rest => 0 :: rest
  | t :: ts, rest => 1 :: codeOnto t (codesOnto ts rest)
end

def code (t : Ty) : List Nat := t.codeOnto []

theorem slotCodeInj {c d : Option ClassId} (same : slotCode c = slotCode d) : c = d := by
  cases c <;> cases d <;> simp_all [slotCode]

mutual
theorem codeSplit : ∀ (a b : Ty) (x y : List Nat), a.codeOnto x = b.codeOnto y → a = b ∧ x = y
  | unknown, b, x, y, h => by cases b <;> simp_all [codeOnto]
  | missing, b, x, y, h => by cases b <;> simp_all [codeOnto]
  | reference r, b, x, y, h => by cases b <;> simp_all [codeOnto]
  | nominal c, b, x, y, h => by
    cases b <;> simp_all [codeOnto]
    exact slotCodeInj h.1
  | collection c e, b, x, y, h => by
    cases b <;> simp_all [codeOnto]
    have tail := codeSplit e _ x y h.2
    exact ⟨⟨slotCodeInj h.1, tail.1⟩, tail.2⟩
  | tuple c es, b, x, y, h => by
    cases b <;> simp_all [codeOnto]
    have tail := codesSplit es _ x y h.2
    exact ⟨⟨slotCodeInj h.1, tail.1⟩, tail.2⟩
  | union ms, b, x, y, h => by
    cases b <;> simp_all [codeOnto]
    exact codesSplit ms _ x y h

theorem codesSplit : ∀ (as bs : List Ty) (x y : List Nat),
    codesOnto as x = codesOnto bs y → as = bs ∧ x = y
  | [], bs, x, y, h => by cases bs <;> simp_all [codesOnto]
  | a :: as, bs, x, y, h => by
    cases bs with
    | nil => simp [codesOnto] at h
    | cons b bs =>
      simp only [codesOnto, List.cons.injEq, true_and] at h
      have head := codeSplit a b _ _ h
      have tail := codesSplit as bs x y head.2
      exact ⟨by rw [head.1, tail.1], tail.2⟩
end

theorem codeInj {a b : Ty} (same : a.code = b.code) : a = b := (codeSplit a b [] [] same).1

instance : DecidableEq Ty := fun a b =>
  decidable_of_iff (a.code = b.code) ⟨codeInj, fun h => h ▸ rfl⟩

def insertMember (t : Ty) : List Ty → List Ty
  | [] => [t]
  | u :: us =>
    if t = u then u :: us
    else if t.code < u.code then t :: u :: us
    else u :: insertMember t us

def canonical : List Ty → List Ty
  | [] => []
  | t :: ts => insertMember t (canonical ts)

/-- The union of some types. One known member stands for itself; unions among the members stay members. -/
def unionOf (members : List Ty) : Ty :=
  match canonical members with
  | [only] => if only = unknown then union [unknown] else only
  | ms => union ms

def class? : Ty → Option ClassId
  | nominal c => c
  | collection c _ => c
  | tuple c _ => c
  | _ => none

def isClassLike : Ty → Bool
  | nominal _ => true
  | collection _ _ => true
  | tuple _ _ => true
  | _ => false

mutual
def isGround : Ty → Bool
  | unknown => true
  | missing => true
  | reference _ => false
  | nominal _ => true
  | collection _ element => isGround element
  | tuple _ elements => allGround elements
  | union members => allGround members

def allGround : List Ty → Bool
  | [] => true
  | t :: ts => isGround t && allGround ts
end

end Ty
end GradualTypes
