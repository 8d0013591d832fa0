import GradualTypes.Proofs.NominalQueries

/-! Contexts that agree on what a question mentions. A verdict looks at the classes and references of the
two types, at what these lead to, and at nothing else: where two contexts have the same declarations, bases,
protocols and answers for all of that, they give one verdict, down to its notes. -/
namespace GradualTypes

namespace Ty

variable {known : ClassId → Prop} {named : RefId → Prop} {t : Ty} {c : Option ClassId}

/- All parts of the type, the whole included, name only such classes and references. -/
def Within (known : ClassId → Prop) (named : RefId → Prop) (t : Ty) : Prop :=
  ∀ p : Ty, p.Part t → p.Fits known named

theorem Within.class (within : t.Within known named) {c : ClassId} (is : t.class? = some c) : known c :=
  (within t (.whole t)).classes c is

theorem Within.reference {r : RefId} (within : (reference r).Within known named) : named r :=
  (within _ (.whole _)).references r rfl

theorem Within.element (within : (collection c t).Within known named) : t.Within known named :=
  fun p part => within p (.element c part)

theorem Within.slot {ts : List Ty} (within : (tuple c ts).Within known named) (member : t ∈ ts) :
    t.Within known named := fun p part => within p (.slot c member part)

theorem Within.member {ts : List Ty} (within : (union ts).Within known named) (member : t ∈ ts) :
    t.Within known named := fun p part => within p (.member member part)

end Ty

namespace ReferenceTable

/- The second table binds the references in question as the first one does, and to types that mention no
others. -/
structure Agrees (t t' : ReferenceTable) (known : ClassId → Prop) (named : RefId → Prop) : Prop where
  direct : ∀ r, named r → t'.direct r = t.direct r
  within : ∀ r, named r → (t.direct r).Within known named

variable {t t' : ReferenceTable} {known : ClassId → Prop} {named : RefId → Prop} {path : List RefId}
  {types answers : List Ty} {s s' : Unfolder} {reads : List (List RefId)}

end ReferenceTable

namespace Context

/- The second context says of these classes and references what the first one says, and they lead to no
others. -/
structure Agrees (x y : Context) (known : ClassId → Prop) (named : RefId → Prop) : Prop where
  decls : ∀ c, known c → y.classes.decl? c = x.classes.decl? c
  bases : ∀ c, known c → y.graph.bases c = x.graph.bases c
  closed : ∀ c b, known c → x.graph.HasBase c b → known b
  requirements : ∀ c n, known c → x.classes.name? c = some n →
    y.protocols.requirements? n = x.protocols.requirements? n
  reach : y.resolver.reach = x.resolver.reach
  answers : ∀ r, named r → y.resolver.answer r = x.resolver.answer r ∧
    (x.resolver.answer r).Within known named

variable {x y : Context} {known : ClassId → Prop} {named : RefId → Prop} {a b c : ClassId}

theorem agreedName (agrees : x.Agrees y known named) (is : known c) : y.classes.name? c = x.classes.name? c := by
  rw [ClassTable.name?, ClassTable.name?, agrees.decls c is]

mutual
theorem agreedDisplay (agrees : x.Agrees y known named) :
    ∀ t : Ty, t.Within known named → t.name? y.classes = t.name? x.classes
  | .unknown, _ => rfl
  | .missing, _ => rfl
  | .reference _, _ => rfl
  | .nominal none, _ => rfl
  | .nominal (some _), within => agreedName agrees (within.class rfl)
  | .collection none _, _ => rfl
  | .collection (some _) _, within => agreedName agrees (within.class rfl)
  | .tuple _ elements, within => by
    rw [Ty.name?, Ty.name?, agreedLabels agrees elements fun _ member => within.slot member]
  | .union members, within => by
    rw [Ty.name?, Ty.name?, agreedLabels agrees members fun _ member => within.member member]

theorem agreedLabels (agrees : x.Agrees y known named) :
    ∀ ts : List Ty, (∀ t ∈ ts, t.Within known named) → Ty.labels y.classes ts = Ty.labels x.classes ts
  | [], _ => rfl
  | t :: ts, within => by
    obtain ⟨first, rest⟩ := List.forall_mem_cons.mp within
    have head := agreedDisplay agrees t first
    have tail := agreedLabels agrees ts rest
    cases t <;> simp only [Ty.labels, head, tail]
end

end Context
end GradualTypes
