import GradualTypes.Proofs.Mentions
import GradualTypes.Proofs.QueryRuns

/-! What expressions denote. An expression denotes a type of its own form, with what its names stand for in
their places; the members of a union are taken as a set, and a single known one stands for the union. Lowering
gives the type that is denoted, unless a name leads nowhere: then it gives the first such name. -/
namespace GradualTypes

namespace Ty

variable {t u : Ty} {ts ms : List Ty}

/- The type is known, and there is no other one among these. -/
def Alone (t : Ty) (ts : List Ty) : Prop := t ≠ unknown ∧ ∀ s, s ∈ ts ↔ s = t

/- The union of a set of types: the one known type in it, or a union of exactly these in the order of their
codes. -/
inductive Unites (ts : List Ty) : Ty → Prop where
  | alone {t : Ty} (only : t.Alone ts) : Unites ts t
  | several {ms : List Ty} (plural : ∀ t : Ty, ¬ t.Alone ts) (members : ∀ s, s ∈ ms ↔ s ∈ ts)
      (sorted : ms.Pairwise (fun s t => s.code < t.code)) : Unites ts (.union ms)

theorem unionOfAlone (only : t.Alone ts) : unionOf ts = t := by
  have same : ∀ s, s ∈ ts ↔ s ∈ [t] := by simpa using only.2
  rw [unionOfCongr same, unionOfSingle only.1]

theorem unionOfSeveral (plural : ∀ t : Ty, ¬ t.Alone ts) : unionOf ts = union (canonical ts) := by
  rcases unionOfCases ts with node | ⟨only, single, known, -⟩
  · exact node
  · refine absurd ⟨known, fun s => ?_⟩ (plural only)
    rw [← memCanonical, single, List.mem_singleton]

theorem unionOfUnites (ts : List Ty) : Unites ts (unionOf ts) := by
  by_cases lone : ∃ t : Ty, t.Alone ts
  · obtain ⟨t, only⟩ := lone
    rw [unionOfAlone only]
    exact .alone only
  · rw [not_exists] at lone
    rw [unionOfSeveral lone]
    exact .several lone (fun s => memCanonical) (canonicalSorted ts)

/- Only the union that is built is the union of a set of types. -/
theorem unitesOnly (united : Unites ts t) : unionOf ts = t := by
  cases united with
  | alone only => exact unionOfAlone only
  | several plural members sorted => rw [unionOfSeveral plural, canonicalOf sorted members]

end Ty

namespace Universe

variable {u : Universe} {e : TypeExpr} {t : Ty}

/- The type that an expression denotes in a universe. -/
inductive Denotes (u : Universe) : TypeExpr → Ty → Prop where
  | unknown : Denotes u .unknown .unknown
  | named {name : String} {c : ClassId} (found : u.class? name = some c) :
      Denotes u (.named name) (.nominal (some c))
  | aliased {name : String} {r : RefId} (found : u.alias? name = some r) : Denotes u (.aliased name) (.reference r)
  | collection {name : String} {element : TypeExpr} {c : ClassId} {t : Ty} (found : u.class? name = some c)
      (inside : Denotes u element t) : Denotes u (.collection name element) (.collection (some c) t)
  | tuple {es : List TypeExpr} {ts : List Ty} (each : List.Forall₂ (Denotes u) es ts) :
      Denotes u (.tuple es) (.tuple (u.class? "tuple") ts)
  | union {es : List TypeExpr} {ts : List Ty} {t : Ty} (each : List.Forall₂ (Denotes u) es ts)
      (united : Ty.Unites ts t) : Denotes u (.union es) t

mutual
theorem lowerSound (u : Universe) : ∀ (e : TypeExpr) {t : Ty}, u.lower e = .ok t → u.Denotes e t
  | .unknown, t, lowers => by
    cases lowers
    exact .unknown
  | .named name, t, lowers => by
    obtain ⟨c, found, last⟩ := boundOk lowers
    cases last
    exact .named (requireClassOk found)
  | .union members, t, lowers => by
    obtain ⟨ms, lowered, last⟩ := boundOk lowers
    cases last
    exact .union (lowerAllSound u members lowered) (Ty.unionOfUnites ms)
  | .tuple elements, t, lowers => by
    obtain ⟨es, lowered, last⟩ := boundOk lowers
    cases last
    exact .tuple (lowerAllSound u elements lowered)
  | .collection name element, t, lowers => by
    obtain ⟨c, found, rest⟩ := boundOk lowers
    obtain ⟨inner, lowered, last⟩ := boundOk rest
    cases last
    exact .collection (requireClassOk found) (lowerSound u element lowered)
  | .aliased name, t, lowers => by
    obtain ⟨r, found, last⟩ := boundOk lowers
    cases last
    exact .aliased (requireAliasOk found)

theorem lowerAllSound (u : Universe) :
    ∀ (es : List TypeExpr) {ts : List Ty}, u.lowerAll es = .ok ts → List.Forall₂ u.Denotes es ts
  | [], ts, lowers => by
    cases lowers
    exact .nil
  | e :: rest, ts, lowers => by
    obtain ⟨head, first, more⟩ := boundOk lowers
    obtain ⟨tail, others, last⟩ := boundOk more
    cases last
    exact .cons (lowerSound u e first) (lowerAllSound u rest others)
end

mutual
theorem lowerComplete (u : Universe) : ∀ (e : TypeExpr) {t : Ty}, u.Denotes e t → u.lower e = .ok t
  | .unknown, _, .unknown => rfl
  | .named _, _, .named found => boundIff.mpr ⟨_, requireClassIff.mpr found, rfl⟩
  | .union members, _, .union each united =>
    boundIff.mpr ⟨_, lowerAllComplete u members each, congrArg Except.ok (Ty.unitesOnly united)⟩
  | .tuple elements, _, .tuple each => boundIff.mpr ⟨_, lowerAllComplete u elements each, rfl⟩
  | .collection _ element, _, .collection found inside =>
    boundIff.mpr ⟨_, requireClassIff.mpr found, boundIff.mpr ⟨_, lowerComplete u element inside, rfl⟩⟩
  | .aliased _, _, .aliased found => boundIff.mpr ⟨_, requireAliasIff.mpr found, rfl⟩

theorem lowerAllComplete (u : Universe) :
    ∀ (es : List TypeExpr) {ts : List Ty}, List.Forall₂ u.Denotes es ts → u.lowerAll es = .ok ts
  | [], _, .nil => rfl
  | e :: rest, _, .cons first others =>
    boundIff.mpr ⟨_, lowerComplete u e first, boundIff.mpr ⟨_, lowerAllComplete u rest others, rfl⟩⟩
end

/- The fault is that of the first name that leads nowhere. -/
def FirstUnknown (u : Universe) (ms : List Mention) (fault : LowerError) : Prop :=
  ∃ before m after, ms = before ++ m :: after ∧ (∀ n ∈ before, u.knows n = true) ∧ u.knows m = false ∧
    m.blame = fault

theorem firstUnknownIff {ms : List Mention} {fault : LowerError} :
    u.firstUnknown? ms = some fault ↔ u.FirstUnknown ms fault := by
  simp only [firstUnknown?, FirstUnknown, Option.map_eq_some_iff, List.find?_eq_some_iff_append, Bool.not_not,
    Bool.not_eq_true']
  grind

theorem lowerBlank (lowers : u.lower e = .ok t) : t = .unknown ↔ e = .unknown := by
  constructor
  · intro blank
    exact lowerUnknown (blank ▸ lowers)
  · intro blank
    subst blank
    exact (Except.ok.inj lowers).symm

end Universe

/- In a table with space, what an expression is lowered to has the tree that it denotes, and is no slot at all
only where that is unknown. -/
theorem SharedUniverse.lowerReads {hash : Node → UInt64} {v : SharedUniverse} (reached : Reached hash v)
    (e : TypeExpr) (space : (v.lower e).2.types.HasSpace) :
    Agrees (fun s t => (v.lower e).2.types.tree s = t ∧ (s = none ↔ t = .unknown)) (v.lower e).1
      (v.outline.lower e) := by
  have standing := reachedStanding reached ((v.lowerEnlarges e).fills.space space)
  obtain ⟨follows, agrees⟩ := lowerSpells v.outline e standing.unfolds space
  have apart := follows.unfolds.apart
  refine agrees.imp fun s t ⟨stands, same⟩ => ⟨same, fun none' => ?_, fun blank => ?_⟩
  · rw [none'] at same
    exact same.symm.trans apart.unknown
  · rw [blank] at same
    exact apart.distinct s none stands (.inl rfl) (same.trans apart.unknown.symm)

namespace Universe

/-- Lowering succeeds exactly if every name that is mentioned leads somewhere, and is refused for the first
that does not. The type is the one that the expression denotes, unknown only for the expression that leaves
everything open; where types are shared in a table with space, the slot is one for that type. -/
theorem loweringExact (u : Universe) (e : TypeExpr) :
    ((∃ t, u.lower e = .ok t) ↔ ∀ m ∈ e.mentions, u.knows m = true) ∧
    (∀ fault, u.lower e = .error fault ↔ u.FirstUnknown e.mentions fault) ∧
    (∀ t, u.lower e = .ok t ↔ u.Denotes e t) ∧
    (∀ t, u.lower e = .ok t → (t = .unknown ↔ e = .unknown)) ∧
    ∀ hash v, SharedUniverse.Reached hash v → v.outline = u → (v.lower e).2.types.HasSpace →
      Agrees (fun s t => (v.lower e).2.types.tree s = t ∧ (s = none ↔ t = .unknown)) (v.lower e).1
        (u.lower e) := by
  refine ⟨lowersIff, fun fault => ?_, fun t => ⟨u.lowerSound e, u.lowerComplete e⟩, fun t => lowerBlank, ?_⟩
  · rw [← faultSome, lowerFault, firstUnknownIff]
  · intro hash v reached outline space
    rw [← outline]
    exact SharedUniverse.lowerReads reached e space

/- The body of `Loop` names a class that is not there, so that `Loop` is declared and stays unbound. -/
def unfinished : Manifest :=
  ⟨[⟨"Box", none, [], []⟩], [], AliasMap.empty.put "Loop" (.union [.named "Lost", .aliased "Loop"])⟩

def unbound : SharedUniverse := ((SharedUniverse.empty fun _ => 0).install unfinished).1

def loops : TypeExpr := .tuple [.aliased "Loop", .collection "Box" (.union [.named "Box", .named "Box"])]

theorem loopsLowered :
    ((SharedUniverse.empty fun _ => 0).install unfinished).2 = some (.body (.unknownClass "Lost")) ∧
    unbound.outline.Denotes loops (.tuple none [.reference 1, .collection (some 1) (.nominal (some 1))]) ∧
    unbound.outline.FirstUnknown [.ofClass "Box", .ofClass "Lost", .ofAlias "Gone"] (.unknownClass "Lost") ∧
    Agrees (fun s t => (unbound.lower loops).2.types.tree s = t ∧ (s = none ↔ t = .unknown))
      (unbound.lower loops).1 (unbound.outline.lower loops) := by
  have lowered : unbound.outline.lower loops =
      .ok (.tuple none [.reference 1, .collection (some 1) (.nominal (some 1))]) := by cbv
  have refused : unbound.outline.lower (.union [.collection "Box" (.named "Lost"), .aliased "Gone"]) =
      .error (.unknownClass "Lost") := by cbv
  have space : (unbound.lower loops).2.types.HasSpace := of_decide_eq_true (by cbv)
  obtain ⟨-, -, denoted, -, shared⟩ := loweringExact unbound.outline loops
  obtain ⟨-, first, -, -, -⟩ :=
    loweringExact unbound.outline (.union [.collection "Box" (.named "Lost"), .aliased "Gone"])
  exact ⟨by cbv, (denoted _).mp lowered, (first _).mp refused,
    shared (fun _ => 0) unbound (.install .start unfinished) rfl space⟩

end Universe
end GradualTypes
