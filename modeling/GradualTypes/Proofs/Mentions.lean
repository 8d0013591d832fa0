import GradualTypes.Proofs.Lowering

/-! The names that an expression mentions. Lowering fails exactly if one of them leads nowhere, and then at
the first of them; what it gives depends on nothing but what they lead to. -/
namespace GradualTypes

/- A name in an expression with what it is looked up as. -/
inductive Mention where
  | ofClass (name : String)
  | ofAlias (name : String)
  deriving DecidableEq, Repr

def Mention.blame : Mention → LowerError
  | ofClass name => .unknownClass name
  | ofAlias name => .unknownAlias name

namespace TypeExpr

mutual
/- From left to right, the name of a collection before those of its element. -/
def mentions : TypeExpr → List Mention
  | unknown => []
  | named name => [.ofClass name]
  | union members => mentionsAll members
  | tuple elements => mentionsAll elements
  | collection name element => .ofClass name :: mentions element
  | aliased name => [.ofAlias name]

def mentionsAll : List TypeExpr → List Mention
  | [] => []
  | e :: rest => mentions e ++ mentionsAll rest
end

end TypeExpr

/- What went wrong, if anything did. -/
def fault? {ε α : Type} : Except ε α → Option ε
  | .ok _ => none
  | .error e => some e

theorem faultNone {ε α : Type} {m : Except ε α} : fault? m = none ↔ ∃ a, m = .ok a := by
  cases m <;> simp [fault?]

theorem faultSome {ε α : Type} {m : Except ε α} {e : ε} : fault? m = some e ↔ m = .error e := by
  cases m <;> simp [fault?]

/- A later step that cannot fail adds no fault. -/
theorem faultLast {ε α β : Type} (m : Except ε α) (f : α → β) :
    fault? (m >>= fun a => .ok (f a)) = fault? m := by
  cases m <;> rfl

/- Of two steps in a row the first fault counts. -/
theorem faultBoth {ε α β γ : Type} (m : Except ε α) (n : Except ε β) (f : α → β → γ) :
    fault? (m >>= fun a => n >>= fun b => .ok (f a b)) = (fault? m).or (fault? n) := by
  cases m <;> cases n <;> rfl

namespace Universe

variable {u v : Universe}

def knows (u : Universe) : Mention → Bool
  | .ofClass name => (u.class? name).isSome
  | .ofAlias name => (u.alias? name).isSome

def firstUnknown? (u : Universe) (ms : List Mention) : Option LowerError :=
  (ms.find? (fun m => !u.knows m)).map Mention.blame

theorem firstUnknownAppend (u : Universe) (ms more : List Mention) :
    u.firstUnknown? (ms ++ more) = (u.firstUnknown? ms).or (u.firstUnknown? more) := by
  simp only [firstUnknown?, List.find?_append]
  cases ms.find? (fun m => !u.knows m) <;> rfl

theorem requireClassFault (u : Universe) (name : String) :
    fault? (u.requireClass name) = u.firstUnknown? [.ofClass name] := by
  unfold requireClass
  split <;> rename_i found <;> simp [fault?, firstUnknown?, knows, found, Mention.blame]

theorem requireAliasFault (u : Universe) (name : String) :
    fault? (u.requireAlias name) = u.firstUnknown? [.ofAlias name] := by
  unfold requireAlias
  split <;> rename_i found <;> simp [fault?, firstUnknown?, knows, found, Mention.blame]

mutual
/- Lowering fails at the first name that is not known. -/
theorem lowerFault (u : Universe) : ∀ e : TypeExpr, fault? (u.lower e) = u.firstUnknown? e.mentions
  | .unknown => rfl
  | .named name => by rw [lower, faultLast, requireClassFault, TypeExpr.mentions]
  | .union members => by rw [lower, faultLast, lowerAllFault u members, TypeExpr.mentions]
  | .tuple elements => by rw [lower, faultLast, lowerAllFault u elements, TypeExpr.mentions]
  | .collection name element => by
    rw [lower, faultBoth, requireClassFault, lowerFault u element, TypeExpr.mentions]
    exact (u.firstUnknownAppend [.ofClass name] element.mentions).symm
  | .aliased name => by rw [lower, faultLast, requireAliasFault, TypeExpr.mentions]

theorem lowerAllFault (u : Universe) :
    ∀ es : List TypeExpr, fault? (u.lowerAll es) = u.firstUnknown? (TypeExpr.mentionsAll es)
  | [] => rfl
  | e :: rest => by
    rw [lowerAll, faultBoth, lowerFault u e, lowerAllFault u rest, TypeExpr.mentionsAll, firstUnknownAppend]
end

theorem lowersIff {e : TypeExpr} : (∃ t, u.lower e = .ok t) ↔ ∀ m ∈ e.mentions, u.knows m = true := by
  rw [← faultNone, lowerFault]
  simp [firstUnknown?]

/- All that `u` looks up, `v` looks up alike, and tuples are of one class in both. -/
structure Keeps (u v : Universe) : Prop where
  classes : ∀ name c, u.class? name = some c → v.class? name = some c
  aliases : ∀ name r, u.alias? name = some r → v.alias? name = some r
  tuples : v.class? tupleClassName = u.class? tupleClassName

mutual
theorem lowerKept (keeps : u.Keeps v) : ∀ (e : TypeExpr) {t : Ty}, u.lower e = .ok t → v.lower e = .ok t
  | .unknown, t, lowers => lowers
  | .named name, t, lowers => by
    obtain ⟨c, found, last⟩ := boundOk lowers
    have there := keeps.classes name c (requireClassOk found)
    simp [lower, requireClass, there, bind, Except.bind, ← last]
  | .union members, t, lowers => by
    obtain ⟨ms, lowered, last⟩ := boundOk lowers
    simp [lower, lowerAllKept keeps members lowered, bind, Except.bind, ← last]
  | .tuple elements, t, lowers => by
    obtain ⟨es, lowered, last⟩ := boundOk lowers
    simp [lower, lowerAllKept keeps elements lowered, keeps.tuples, bind, Except.bind, ← last]
  | .collection name element, t, lowers => by
    obtain ⟨c, found, rest⟩ := boundOk lowers
    obtain ⟨inner, lowered, last⟩ := boundOk rest
    have there := keeps.classes name c (requireClassOk found)
    simp [lower, requireClass, there, lowerKept keeps element lowered, bind, Except.bind, ← last]
  | .aliased name, t, lowers => by
    obtain ⟨r, found, last⟩ := boundOk lowers
    have there := keeps.aliases name r (requireAliasOk found)
    simp [lower, requireAlias, there, bind, Except.bind, ← last]

theorem lowerAllKept (keeps : u.Keeps v) :
    ∀ (es : List TypeExpr) {ts : List Ty}, u.lowerAll es = .ok ts → v.lowerAll es = .ok ts
  | [], ts, lowers => lowers
  | e :: rest, ts, lowers => by
    obtain ⟨head, first, more⟩ := boundOk lowers
    obtain ⟨tail, others, last⟩ := boundOk more
    simp [lowerAll, lowerKept keeps e first, lowerAllKept keeps rest others, bind, Except.bind, ← last]
end

end Universe
end GradualTypes
