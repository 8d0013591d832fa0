import GradualTypes.Proofs.MatchRules
import Mathlib.Logic.Relation

/-! The calls of a match. The rules are written here once more with every further question put to a function
`ask`, so that one application of them can be told from the next, and with no bound on how many there may be.
A call resolves a reference, which puts an end to references on its side, or goes to smaller types. So the calls
from any two types come to an end, and the verdict is the one answer that the rules leave open. -/
namespace GradualTypes

namespace Verdict

variable {α : Type}

end Verdict

namespace Context

/- The questions that the rules may put about two types. -/
inductive Calls (x : Context) : Ty × Ty → Ty × Ty → Prop where
  | expectedAnswer {r : RefId} {a : Ty} (known : a ≠ .unknown) (present : a ≠ .missing) :
    Calls x (.reference r, a) (x.resolver.answer r, a)
  | actualAnswer {e : Ty} {r : RefId} (known : e ≠ .unknown) (present : e ≠ .missing)
    (proper : ∀ q, e ≠ .reference q) : Calls x (e, .reference r) (e, x.resolver.answer r)
  | actualMember {e m : Ty} {ms : List Ty} (known : e ≠ .unknown) (present : e ≠ .missing)
    (proper : ∀ q, e ≠ .reference q) (shown : .unknown ∉ ms) (member : m ∈ ms) : Calls x (e, .union ms) (e, m)
  | expectedMember {m a : Ty} {ms : List Ty} (classLike : a.isClassLike = true) (member : m ∈ ms) :
    Calls x (.union ms, a) (m, a)
  | elements {c d : Option ClassId} {e a : Ty} (special : x.isUniversal c = false)
    (compatible : x.classesCompatible c d = true) : Calls x (.collection c e, .collection d a) (e, a)
  | slots {c d : Option ClassId} {es as : List Ty} {p : Ty × Ty} (special : x.isUniversal c = false)
    (arity : es.length = as.length) (member : p ∈ es.zip as) : Calls x (.tuple c es, .tuple d as) p

variable {x : Context}

end Context
end GradualTypes
