import GradualTypes.Context
import GradualTypes.NumericTier
import GradualTypes.TypeName

/-! Whether a value of one type may be used where another is required. What is not known never speaks
against a match. The rules in their order: unknown types; references, the expected one first; a union as
the actual type, all of whose members must match; a union as the expected type, of whose members one must;
the universal class; collections by class and element; tuples by position; compatible classes; equal types;
display names. -/
namespace GradualTypes

inductive Note where
  | asked (r : RefId)
  | unknownMember
  | arityMismatch (expected actual : Nat)
  | names (expected actual : String) (matched : Bool)
  deriving DecidableEq, Repr

structure Verdict where
  holds : Bool
  notes : List Note
  deriving DecidableEq, Repr

namespace Verdict

def yes : Verdict := ⟨true, []⟩

def no : Verdict := ⟨false, []⟩

def noting (n : Note) (v : Verdict) : Verdict := ⟨v.holds, n :: v.notes⟩

/- Stops at the first that does not hold. -/
def all (f : α → Verdict) : List α → Verdict
  | [] => yes
  | a :: rest =>
    let v := f a
    if v.holds then
      let w := all f rest
      ⟨w.holds, v.notes ++ w.notes⟩
    else v

/- Stops at the first that holds. -/
def any (f : α → Verdict) : List α → Verdict
  | [] => no
  | a :: rest =>
    let v := f a
    if v.holds then v
    else
      let w := any f rest
      ⟨w.holds, v.notes ++ w.notes⟩

end Verdict

namespace Context

/- The last resort. A type without a name matches. -/
def namesMatch (x : Context) (expected actual : Ty) : Verdict :=
  match expected.name? x.classes, actual.name? x.classes with
  | some e, some a =>
    let matched := e == a || NumericTier.promotes e a
    ⟨matched, [.names e a matched]⟩
  | _, _ => .yes

/-- The rules for one pair of types; `resume` goes on where a reference was answered. -/
def compare (x : Context) (resume : Ty → Ty → Verdict) (expected actual : Ty) : Verdict :=
  match expected, actual with
  | .unknown, _ => .yes
  | _, .unknown => .yes
  | .missing, _ => .yes
  | _, .missing => .yes
  | .reference r, a => (resume (x.resolver.answer r) a).noting (.asked r)
  | e, .reference r => (resume e (x.resolver.answer r)).noting (.asked r)
  | e, .union ms =>
    if .unknown ∈ ms then Verdict.yes.noting .unknownMember
    else Verdict.all (fun m => x.compare resume e m.val) ms.attach
  | .union ms, a => Verdict.any (fun m => x.compare resume m.val a) ms.attach
  | .collection c e, .collection d a =>
    if x.isUniversal c then .yes
    else if x.classesCompatible c d then x.compare resume e a
    else .no
  | .tuple c es, .tuple _ as =>
    if x.isUniversal c then .yes
    else if es.length = as.length then
      Verdict.all (fun p => x.compare resume p.val.1 p.val.2) (es.zip as).attach
    else ⟨false, [.arityMismatch es.length as.length]⟩
  | e, a =>
    if x.isUniversal e.class? then .yes
    else if x.classesCompatible e.class? a.class? then .yes
    else if e = a then .yes
    else x.namesMatch e a
termination_by sizeOf expected + sizeOf actual
decreasing_by
  · have := List.sizeOf_lt_of_mem m.property
    simp only [Ty.union.sizeOf_spec]
    omega
  · have := List.sizeOf_lt_of_mem m.property
    simp only [Ty.union.sizeOf_spec]
    omega
  · simp only [Ty.collection.sizeOf_spec]
    omega
  · obtain ⟨⟨e, a⟩, member⟩ := p
    have := List.sizeOf_lt_of_mem (List.of_mem_zip member).1
    have := List.sizeOf_lt_of_mem (List.of_mem_zip member).2
    simp only [Ty.tuple.sizeOf_spec]
    omega

/- Passes at most `steps` references on a path and takes the next one as unknown. -/
def compareWithin (x : Context) : Nat → Ty → Ty → Verdict
  | 0 => x.compare (fun _ _ => .yes)
  | steps + 1 => x.compare (x.compareWithin steps)

def verdict (x : Context) (expected actual : Ty) : Verdict :=
  x.compareWithin x.resolver.reach expected actual

def isMatch (x : Context) (expected actual : Ty) : Bool := (x.verdict expected actual).holds

end Context

inductive LogEntry where
  | started (expectedKnown actualKnown : Bool)
  | noted (n : Note)
  | ended (result : Bool)
  deriving DecidableEq, Repr

def Context.log (x : Context) (expected actual : Ty) : List LogEntry :=
  let v := x.verdict expected actual
  .started (expected != .unknown) (actual != .unknown) :: (v.notes.map .noted ++ [.ended v.holds])

end GradualTypes
