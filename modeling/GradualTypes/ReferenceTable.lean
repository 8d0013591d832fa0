import GradualTypes.Ty

/-! Named references and their unfolding. A reference is bound to a type that may mention references
again, itself included. Resolving one replaces all of them, within two limits: how many bindings are read
in all, and how often one reference is opened inside itself. Past a limit the type is unknown. -/
namespace GradualTypes

structure ReferenceTable where
  -- How many references were declared; they are numbered from 1.
  declared : Nat
  bindings : List (RefId × Ty)
  deriving DecidableEq, Repr

/- One resolution in progress. -/
structure Unfolder where
  -- The references open at the moment, with how often each is open.
  active : List (RefId × Nat)
  -- How many more bindings may be read.
  budget : Nat
  deriving DecidableEq, Repr

namespace Unfolder

/- Most bindings read while one reference is resolved. -/
def expansionLimit : Nat := 64

/- How often a reference may be open inside itself. -/
def nestingLimit : Nat := 3

def start : Unfolder := ⟨[], expansionLimit⟩

def depth (s : Unfolder) (r : RefId) : Nat := (s.active.lookup r).getD 0

def isSpent (s : Unfolder) (r : RefId) : Bool := nestingLimit ≤ s.depth r || s.budget = 0

def others (s : Unfolder) (r : RefId) : List (RefId × Nat) := s.active.filter (fun a => a.1 != r)

def enter (s : Unfolder) (r : RefId) : Unfolder := ⟨(r, s.depth r + 1) :: s.others r, s.budget - 1⟩

/- Puts the count of `r` back to what it was before `r` was entered; the budget stays spent. -/
def leave (s : Unfolder) (r : RefId) (depth : Nat) : Unfolder :=
  ⟨if depth = 0 then s.others r else (r, depth) :: s.others r, s.budget⟩

/- An answer with the state it leaves behind, which has no more budget than the one it began with. -/
abbrev After (s : Unfolder) (α : Type) := {out : α × Unfolder // out.2.budget ≤ s.budget}

theorem enterBudget {s : Unfolder} {r : RefId} (open' : ¬ s.isSpent r) :
    (s.enter r).budget < s.budget := by
  simp only [isSpent, Bool.or_eq_true, decide_eq_true_eq, not_or] at open'
  simp only [enter]
  omega

end Unfolder

namespace ReferenceTable

def empty : ReferenceTable := ⟨0, []⟩

def size (t : ReferenceTable) : Nat := t.bindings.length

def declare (t : ReferenceTable) : RefId × ReferenceTable :=
  (t.declared + 1, ⟨t.declared + 1, t.bindings⟩)

/- Binds a reference, declared or not, in place of any earlier binding. -/
def bind (t : ReferenceTable) (r : RefId) (target : Ty) : ReferenceTable :=
  ⟨t.declared, (r, target) :: t.bindings.filter (fun b => b.1 != r)⟩

def binding? (t : ReferenceTable) (r : RefId) : Option Ty := t.bindings.lookup r

def direct (t : ReferenceTable) (r : RefId) : Ty := (t.binding? r).getD .unknown

mutual
/-- Opens a reference, unless a limit is reached. Every opening costs budget, so that openings inside
openings come to an end however the bindings refer to each other. -/
def expand (t : ReferenceTable) (r : RefId) (s : Unfolder) : s.After Ty :=
  if room : s.isSpent r then ⟨(.unknown, s), Nat.le_refl _⟩
  else
    let inner := t.unfold (t.direct r) (s.enter r)
    ⟨(inner.val.1, inner.val.2.leave r (s.depth r)),
      Nat.le_of_lt (Nat.lt_of_le_of_lt inner.property (Unfolder.enterBudget room))⟩
termination_by (s.budget, 0)
decreasing_by exact Prod.Lex.left _ _ (Unfolder.enterBudget room)

/- Replaces every reference from left to right and builds the type anew around the answers. -/
def unfold (t : ReferenceTable) (ty : Ty) (s : Unfolder) : s.After Ty :=
  match ty with
  | .unknown => ⟨(.unknown, s), Nat.le_refl _⟩
  | .missing => ⟨(.missing, s), Nat.le_refl _⟩
  | .reference r => t.expand r s
  | .nominal c => ⟨(.nominal c, s), Nat.le_refl _⟩
  | .collection c element =>
    let e := t.unfold element s
    ⟨(.collection c e.val.1, e.val.2), e.property⟩
  | .tuple c elements =>
    let es := t.unfoldAll elements s
    ⟨(.tuple c es.val.1, es.val.2), es.property⟩
  | .union members =>
    let ms := t.unfoldAll members s
    ⟨(Ty.unionOf ms.val.1, ms.val.2), ms.property⟩
termination_by (s.budget, sizeOf ty)
decreasing_by all_goals (apply Prod.Lex.right; simp +arith)

def unfoldAll (t : ReferenceTable) (types : List Ty) (s : Unfolder) : s.After (List Ty) :=
  match types with
  | [] => ⟨([], s), Nat.le_refl _⟩
  | ty :: rest =>
    let head := t.unfold ty s
    let tail := t.unfoldAll rest head.val.2
    ⟨(head.val.1 :: tail.val.1, tail.val.2), Nat.le_trans tail.property head.property⟩
termination_by (s.budget, sizeOf types)
decreasing_by
  · apply Prod.Lex.right
    simp +arith
  · rcases Nat.lt_or_eq_of_le head.property with less | same
    · exact Prod.Lex.left _ _ less
    · rw [same]
      apply Prod.Lex.right
      simp +arith
end

def resolve (t : ReferenceTable) (r : RefId) : Ty := (t.expand r .start).val.1

end ReferenceTable
end GradualTypes
