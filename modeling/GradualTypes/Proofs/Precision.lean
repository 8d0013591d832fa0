import GradualTypes.Proofs.MatchOrder

/-! Less precise types. Leaving out what is known of a type, at any depth of it, makes it wider as the
expected and looser as the actual type, so that a match is never lost by knowing less. -/
namespace GradualTypes

/- `Blurs t t'`: `t'` is `t` with some slots unknown and some collections reduced to their class, the nodes
around them built anew. -/
inductive Blurs : Ty → Ty → Prop where
  | same (t : Ty) : Blurs t t
  | unknown (t : Ty) : Blurs t .unknown
  | nominal (c : Option ClassId) (element : Ty) : Blurs (.collection c element) (.nominal c)
  | collection (c : Option ClassId) {element element' : Ty} (inside : Blurs element element') :
      Blurs (.collection c element) (.collection c element')
  | tuple (c : Option ClassId) {es es' : List Ty} (arity : es.length = es'.length)
      (parts : ∀ p ∈ es.zip es', Blurs p.1 p.2) : Blurs (.tuple c es) (.tuple c es')
  | union {ms ms' : List Ty} (arity : ms.length = ms'.length)
      (parts : ∀ p ∈ ms.zip ms', Blurs p.1 p.2) : Blurs (.union ms) (Ty.unionOf ms')

theorem forallZip {α β : Type} {R : α → β → Prop} {l : List α} {l' : List β}
    (arity : l.length = l'.length) (parts : ∀ p ∈ l.zip l', R p.1 p.2) : List.Forall₂ R l l' :=
  List.forall₂_iff_zip.mpr ⟨arity, fun member => parts _ member⟩

namespace Context

variable {x : Context}

/- Less is known of `t'` than of `t`, in either place of a match. -/
structure Vaguer (x : Context) (t t' : Ty) : Prop where
  wider : x.Wider t t'
  looser : x.Looser t t'

theorem vaguerRefl (x : Context) (t : Ty) : x.Vaguer t t := ⟨x.widerRefl t, x.looserRefl t⟩

theorem vaguerTrans {t t' t'' : Ty} (first : x.Vaguer t t') (second : x.Vaguer t' t'') : x.Vaguer t t'' :=
  ⟨widerTrans first.wider second.wider, looserTrans first.looser second.looser⟩

theorem vaguerUnknown (settled : x.resolver.Settled) (t : Ty) : x.Vaguer t .unknown :=
  ⟨widerUnknown settled t, looserUnknown settled t⟩

theorem vaguerNominal (settled : x.resolver.Settled) (c : Option ClassId) (t : Ty) :
    x.Vaguer (.collection c t) (.nominal c) :=
  ⟨widerNominal settled c t, looserNominal settled c t⟩

theorem vaguerNode (settled : x.resolver.Settled) (ts : List Ty) : x.Vaguer (.union ts) (Ty.unionOf ts) :=
  ⟨(widerNode settled ts).1, looserNode settled ts⟩

theorem vaguerCollection (settled : x.resolver.Settled) (c : Option ClassId) {t t' : Ty} (vaguer : x.Vaguer t t') :
    x.Vaguer (.collection c t) (.collection c t') :=
  ⟨widerCollection settled c vaguer.wider, looserCollection settled c vaguer.looser.accepted⟩

theorem vaguerTuple (settled : x.resolver.Settled) (plain : x.classes.NoTupleNames) (c : Option ClassId)
    {ts ts' : List Ty} (vaguer : List.Forall₂ x.Vaguer ts ts') : x.Vaguer (.tuple c ts) (.tuple c ts') :=
  ⟨widerTuple settled plain c (vaguer.imp fun _ _ h => h.wider),
    looserTuple settled plain c (vaguer.imp fun _ _ h => h.looser.accepted)⟩

theorem vaguerUnion (settled : x.resolver.Settled) {ts ts' : List Ty} (vaguer : List.Forall₂ x.Vaguer ts ts') :
    x.Vaguer (Ty.unionOf ts) (Ty.unionOf ts') :=
  ⟨widerUnion settled (vaguer.imp fun _ _ h => h.wider), looserUnion settled (vaguer.imp fun _ _ h => h.looser)⟩

theorem vaguerOfBlurs (settled : x.resolver.Settled) (plain : x.classes.NoTupleNames) {t t' : Ty}
    (blurs : Blurs t t') : x.Vaguer t t' := by
  induction blurs with
  | same t => exact x.vaguerRefl t
  | unknown t => exact vaguerUnknown settled t
  | nominal c element => exact vaguerNominal settled c element
  | collection c inside ih => exact vaguerCollection settled c ih
  | tuple c arity parts ih => exact vaguerTuple settled plain c (forallZip arity ih)
  | @union ms ms' arity parts ih =>
    exact vaguerTrans (vaguerNode settled ms) (vaguerUnion settled (forallZip arity ih))

theorem widerOfBlurs (settled : x.resolver.Settled) (plain : x.classes.NoTupleNames) {e e' : Ty}
    (blurs : Blurs e e') : x.Wider e e' := (vaguerOfBlurs settled plain blurs).wider

theorem looserOfBlurs (settled : x.resolver.Settled) (plain : x.classes.NoTupleNames) {a a' : Ty}
    (blurs : Blurs a a') : x.Looser a a' := (vaguerOfBlurs settled plain blurs).looser

/-- What matches goes on to match when less is known of either side. -/
theorem matchOfBlurs (x : Context)
    (resolver : x.resolver = .silent ∨ ∃ t, x.resolver = .ofTable t)
    (plain : x.classes.NoTupleNames) {expected expected' actual actual' : Ty}
    (left : Blurs expected expected') (right : Blurs actual actual')
    (matched : x.isMatch expected actual = true) : x.isMatch expected' actual' = true := by
  have settled : x.resolver.Settled := by
    rcases resolver with same | ⟨t, same⟩
    · exact same ▸ Resolver.silentSettled
    · exact same ▸ Resolver.ofTableSettled t
  have wider := widerOfBlurs settled plain left
  have looser := looserOfBlurs settled plain right
  exact looser.accepted _ (wider _ matched)

/- `int`, `str` and `list` without bases, and a reference to lists of `int`. -/
def listing : Context :=
  ⟨⟨[⟨some "int", none, []⟩, ⟨some "str", none, []⟩, ⟨some "list", none, []⟩]⟩, .empty, .standard,
    .ofTable ⟨1, [(1, .collection (some 3) (.nominal (some 1)))]⟩⟩

def listOf (element : Ty) : Ty := .collection (some 3) element

/- A pair of a list and a union, its parts blurred one way as the expected and another as the actual type. -/
theorem pairBlurred :
    listing.isMatch (.tuple none [listOf (.nominal (some 2)), .union [.nominal (some 1), .nominal (some 2)]])
        (.tuple none [listOf (.nominal (some 2)), .nominal (some 2)]) = true ∧
      listing.isMatch (.tuple none [.nominal (some 3), Ty.unionOf [.nominal (some 1), .unknown]])
        (.tuple none [listOf .unknown, .nominal (some 2)]) = true := by
  have matched : listing.isMatch
      (.tuple none [listOf (.nominal (some 2)), .union [.nominal (some 1), .nominal (some 2)]])
      (.tuple none [listOf (.nominal (some 2)), .nominal (some 2)]) = true := by decide +kernel
  refine ⟨matched, matchOfBlurs listing (.inr ⟨_, rfl⟩) (by decide) ?_ ?_ matched⟩
  · refine .tuple none rfl (List.forall_mem_cons.mpr ⟨.nominal _ _, List.forall_mem_cons.mpr ⟨?_, nofun⟩⟩)
    exact @Blurs.union _ [.nominal (some 1), .unknown] rfl
      (List.forall_mem_cons.mpr ⟨.same _, List.forall_mem_cons.mpr ⟨.unknown _, nofun⟩⟩)
  · exact .tuple none rfl (List.forall_mem_cons.mpr ⟨.collection _ (.unknown _),
      List.forall_mem_cons.mpr ⟨.same _, nofun⟩⟩)

end Context
end GradualTypes
