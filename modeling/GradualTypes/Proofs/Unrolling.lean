import GradualTypes.Proofs.Unfolding
import Mathlib.Algebra.GroupWithZero.Nat
import Mathlib.Algebra.Order.BigOperators.Group.List
import Mathlib.Algebra.Order.Group.Nat
import Mathlib.Logic.Relation

/-! Unrolling along paths. `unroll` opens a reference inside the references of its own path alone and has
no budget; `openings` counts how many bindings it reads. As long as that many fit into the budget, the
unfolder, which shares counts and budget among all its branches, gives the same type. Where nothing is
recursive, that type is the only one with all bindings put in place. -/
namespace GradualTypes.ReferenceTable

/- How often the bound references may still be opened below a path. -/
def room (t : ReferenceTable) (limit : Nat) (path : List RefId) : Nat :=
  (t.bindings.map (fun b => limit - path.count b.1)).sum

theorem roomShrinks (t : ReferenceTable) {limit : Nat} {path : List RefId} {r : RefId} {target : Ty}
    (bound : t.binding? r = some target) (shallow : path.count r < limit) :
    t.room limit (r :: path) < t.room limit path := by
  have less : ∀ q, limit - (r :: path).count q ≤ limit - path.count q := by
    intro q
    have := List.count_le_count_cons (a := q) (b := r) (l := path)
    omega
  have mono : ∀ bs : List (RefId × Ty), (bs.map (fun b => limit - (r :: path).count b.1)).sum ≤
      (bs.map (fun b => limit - path.count b.1)).sum :=
    fun bs => List.sum_le_sum (fun b _ => less b.1)
  obtain ⟨declared, bindings⟩ := t
  simp only [room, binding?] at bound ⊢
  induction bindings with
  | nil => simp at bound
  | cons b rest ih =>
    simp only [List.map_cons, List.sum_cons]
    by_cases same : r = b.1
    · have here : limit - (r :: path).count b.1 < limit - path.count b.1 := by
        rw [← same, List.count_cons_self]
        omega
      have := mono rest
      omega
    · have other : (r == b.1) = false := by simpa using same
      rw [List.lookup_cons, other] at bound
      have := ih bound
      have := less b.1
      omega

/- The binding of `r` with every reference in it unrolled in turn, unknown where `r` is on the path as
often as `limit` allows already, or unbound. -/
def unroll (t : ReferenceTable) (limit : Nat) (path : List RefId) (r : RefId) : Ty :=
  if _closed : limit ≤ path.count r then .unknown
  else
    match _bound : t.binding? r with
    | none => .unknown
    | some target => target.substitute (t.unroll limit (r :: path))
termination_by t.room limit path
decreasing_by exact t.roomShrinks _bound (Nat.lt_of_not_le _closed)

/- How many bindings are read while `r` is unrolled. -/
def openings (t : ReferenceTable) (limit : Nat) (path : List RefId) (r : RefId) : Nat :=
  if _closed : limit ≤ path.count r then 0
  else
    match _bound : t.binding? r with
    | none => 1
    | some target => (target.references.map (t.openings limit (r :: path))).sum + 1
termination_by t.room limit path
decreasing_by exact t.roomShrinks _bound (Nat.lt_of_not_le _closed)

variable {t : ReferenceTable} {limit : Nat} {path : List RefId} {r : RefId}

theorem unrollClosed (closed : limit ≤ path.count r) : t.unroll limit path r = .unknown := by
  rw [unroll, dif_pos closed]

theorem unrollOpen (shallow : path.count r < limit) :
    t.unroll limit path r = (t.direct r).substitute (t.unroll limit (r :: path)) := by
  rw [unroll, dif_neg (Nat.not_le.mpr shallow), direct]
  split
  · rename_i unbound
    simp [unbound, Ty.substitute]
  · rename_i target bound
    simp [bound]

theorem openingsClosed (closed : limit ≤ path.count r) : t.openings limit path r = 0 := by
  rw [openings, dif_pos closed]

theorem openingsOpen (shallow : path.count r < limit) :
    t.openings limit path r =
      ((t.direct r).references.map (t.openings limit (r :: path))).sum + 1 := by
  rw [openings, dif_neg (Nat.not_le.mpr shallow), direct]
  split
  · rename_i unbound
    simp [unbound, Ty.references]
  · rename_i target bound
    simp [bound]

/- The openings of all references that occur in a row of types. -/
def openingsIn (t : ReferenceTable) (limit : Nat) (path : List RefId) (types : List Ty) : Nat :=
  ((Ty.referencesAll types).map (t.openings limit path)).sum

theorem openingsInCons (t : ReferenceTable) (limit : Nat) (path : List RefId) (ty : Ty)
    (rest : List Ty) :
    t.openingsIn limit path (ty :: rest) =
      (ty.references.map (t.openings limit path)).sum + t.openingsIn limit path rest := by
  simp [openingsIn, Ty.referencesAll]

theorem openingsInOne (t : ReferenceTable) (limit : Nat) (path : List RefId) (ty : Ty) :
    t.openingsIn limit path [ty] = (ty.references.map (t.openings limit path)).sum := by
  simp [openingsIn, Ty.referencesAll]

/- A run whose openings fit into the budget unrolls every type of its row and reads as many bindings. -/
theorem runUnrolls {types answers : List Ty} {s s' : Unfolder} {reads : List (List RefId)}
    (run : Run t path types s answers s' reads) (agrees : s.Agrees path)
    (enough : t.openingsIn Unfolder.nestingLimit path types ≤ s.budget) :
    answers = types.map (Ty.substitute (t.unroll Unfolder.nestingLimit path)) ∧
      reads.length = t.openingsIn Unfolder.nestingLimit path types := by
  induction run with
  | done => simp [openingsIn, Ty.referencesAll]
  | @plain path ty rest s us s' reads leaf later ih =>
    rw [openingsInCons] at enough ⊢
    obtain ⟨answers, count⟩ := ih agrees (by omega)
    rw [List.map_cons, ← answers, count]
    rcases leaf with rfl | rfl | ⟨c, rfl⟩ <;> simp [Ty.substitute, Ty.references]
  | @cut path r rest s us s' reads spent later ih =>
    rw [openingsInCons] at enough ⊢
    obtain ⟨answers, count⟩ := ih agrees (by omega)
    have closed : Unfolder.nestingLimit ≤ path.count r := by
      by_contra shallow
      have opening := openingsOpen (t := t) (Nat.lt_of_not_le shallow)
      simp only [Ty.references, List.map_cons, List.map_nil, List.sum_cons, List.sum_nil] at enough
      simp only [Unfolder.isSpent, agrees r, Bool.or_eq_true, decide_eq_true_eq] at spent
      omega
    simp [Ty.substitute, Ty.references, unrollClosed closed, openingsClosed closed, ← answers, count]
  | @opened path r rest s u inner us s' within after room inside later ihInside ihLater =>
    rw [openingsInCons] at enough ⊢
    have left := Unfolder.roomLeft room
    have shallow : path.count r < Unfolder.nestingLimit := by
      rw [← agrees r]
      exact left.1
    have opening := openingsOpen (t := t) shallow
    simp only [Ty.references, List.map_cons, List.map_nil, List.sum_cons, List.sum_nil] at enough ⊢
    obtain ⟨answer, count⟩ := ihInside (Unfolder.enterAgrees agrees r) (by
      rw [openingsInOne]
      simp only [Unfolder.enter]
      omega)
    have spent := runSpends inside
    rw [openingsInOne] at count
    simp only [Unfolder.enter] at spent
    obtain ⟨answers, countLater⟩ := ihLater (leaveAgrees inside agrees) (by
      simp only [Unfolder.leave]
      omega)
    constructor
    · simp only [List.map_cons, List.map_nil, List.cons.injEq, and_true] at answer
      simp [Ty.substitute, unrollOpen shallow, answer, answers]
    · simp only [List.length_cons, List.length_append]
      omega
  | @collection path c element rest s u inner us s' within after inside later ihInside ihLater =>
    rw [openingsInCons, Ty.references] at enough ⊢
    obtain ⟨answer, count⟩ := ihInside agrees (by rw [openingsInOne]; omega)
    have spent := runSpends inside
    rw [openingsInOne] at count
    obtain ⟨answers, countLater⟩ := ihLater (runKeepsAgreement inside agrees) (by omega)
    constructor
    · simp only [List.map_cons, List.map_nil, List.cons.injEq, and_true] at answer
      simp [Ty.substitute, answer, answers]
    · simp only [List.length_append]
      omega
  | @tuple path c elements rest s es inner us s' within after inside later ihInside ihLater =>
    rw [openingsInCons, Ty.references] at enough ⊢
    obtain ⟨answer, count⟩ := ihInside agrees (by unfold openingsIn; omega)
    have spent := runSpends inside
    rw [openingsIn] at count
    obtain ⟨answers, countLater⟩ := ihLater (runKeepsAgreement inside agrees) (by omega)
    constructor
    · simp [Ty.substitute, Ty.substituteAllMap, answer, answers]
    · simp only [List.length_append]
      omega
  | @union path members rest s ms inner us s' within after inside later ihInside ihLater =>
    rw [openingsInCons, Ty.references] at enough ⊢
    obtain ⟨answer, count⟩ := ihInside agrees (by unfold openingsIn; omega)
    have spent := runSpends inside
    rw [openingsIn] at count
    obtain ⟨answers, countLater⟩ := ihLater (runKeepsAgreement inside agrees) (by omega)
    constructor
    · simp [Ty.substitute, Ty.substituteAllMap, answer, answers]
    · simp only [List.length_append]
      omega

theorem resolveUnrolls (t : ReferenceTable) {r : RefId}
    (enough : t.openings Unfolder.nestingLimit [] r ≤ Unfolder.expansionLimit) :
    t.resolve r = t.unroll Unfolder.nestingLimit [] r := by
  obtain ⟨final, reads, run⟩ := t.resolveRuns r
  have unrolled := runUnrolls run Unfolder.startAgrees (by
    simpa [openingsIn, Ty.referencesAll, Ty.references, Unfolder.start] using enough)
  simpa [Ty.substitute] using unrolled.1

/- One reference occurs in what the other is bound to. -/
def Mentions (t : ReferenceTable) (r q : RefId) : Prop := q ∈ (t.direct r).references

/- `q` is met while `r` is unrolled. -/
def Meets (t : ReferenceTable) (r q : RefId) : Prop := Relation.ReflTransGen t.Mentions r q

def Recursive (t : ReferenceTable) (r : RefId) : Prop := Relation.TransGen t.Mentions r r

/- Only a reference that is bound mentions others, so that a path gets less room with every reference on it. -/
theorem roomMentioned (t : ReferenceTable) {limit : Nat} {path : List RefId} {r q : RefId}
    (mentioned : t.Mentions r q) (shallow : path.count r < limit) :
    t.room limit (r :: path) < t.room limit path := by
  unfold Mentions direct at mentioned
  cases bound : t.binding? r with
  | none => simp [bound, Ty.references] at mentioned
  | some target => exact t.roomShrinks bound shallow

/- Bindings that mention earlier references only are not recursive. -/
theorem earlierOnly {t : ReferenceTable} (earlier : ∀ b ∈ t.bindings, ∀ q ∈ b.2.references, q < b.1)
    (r : RefId) : ¬ t.Recursive r := by
  have mentioned : ∀ p q, t.Mentions p q → q < p := by
    intro p q mention
    unfold Mentions direct binding? at mention
    cases found : t.bindings.lookup p with
    | none => simp [found, Ty.references] at mention
    | some target =>
      obtain ⟨before, after, split, -⟩ := List.lookup_eq_some_iff.mp found
      rw [found] at mention
      exact earlier (p, target) (by simp [split]) q mention
  have met : ∀ p q, Relation.TransGen t.Mentions p q → q < p := by
    intro p q path
    induction path with
    | single mention => exact mentioned _ _ mention
    | tail _ mention ih => exact Nat.lt_trans (mentioned _ _ mention) ih
  exact fun path => Nat.lt_irrefl r (met r r path)

/- Paths that agree on all references that are met lead to the same type and the same openings. -/
theorem unrollPathCongr (t : ReferenceTable) (limit : Nat) (path path' : List RefId) (r : RefId)
    (same : ∀ q, t.Meets r q → path.count q = path'.count q) :
    t.unroll limit path r = t.unroll limit path' r ∧
      t.openings limit path r = t.openings limit path' r := by
  have here : path.count r = path'.count r := same r .refl
  by_cases closed : limit ≤ path.count r
  · rw [unrollClosed closed, unrollClosed (here ▸ closed), openingsClosed closed,
      openingsClosed (here ▸ closed)]
    exact ⟨rfl, rfl⟩
  · have shallow := Nat.lt_of_not_le closed
    have below : ∀ q ∈ (t.direct r).references,
        t.unroll limit (r :: path) q = t.unroll limit (r :: path') q ∧
          t.openings limit (r :: path) q = t.openings limit (r :: path') q := by
      intro q mentioned
      apply unrollPathCongr
      intro p met
      have agree := same p (.head mentioned met)
      simp only [List.count_cons, agree]
    rw [unrollOpen shallow, unrollOpen (here ▸ shallow), openingsOpen shallow,
      openingsOpen (here ▸ shallow)]
    constructor
    · exact Ty.substituteCongr _ (fun q mentioned => (below q mentioned).1)
    · rw [List.map_congr_left (fun q mentioned => (below q mentioned).2)]
termination_by t.room limit path
decreasing_by exact t.roomMentioned mentioned shallow

theorem notMetBelow (t : ReferenceTable) {r q : RefId} (plain : ¬ t.Recursive r)
    (mentioned : t.Mentions r q) : ¬ t.Meets q r :=
  fun met => plain (.head' mentioned met)

/- What a reference mentions is unrolled as if it stood alone, unless the reference occurs inside itself. -/
theorem unrollAlone (t : ReferenceTable) (limit : Nat) {r q : RefId} (plain : ¬ t.Recursive r)
    (mentioned : t.Mentions r q) :
    t.unroll limit [r] q = t.unroll limit [] q ∧ t.openings limit [r] q = t.openings limit [] q := by
  apply unrollPathCongr
  intro p met
  have other : p ≠ r := by
    rintro rfl
    exact t.notMetBelow plain mentioned met
  simp [List.count_cons_of_ne (Ne.symm other)]

theorem openingsBelow (t : ReferenceTable) {limit : Nat} (positive : 0 < limit) {r q : RefId}
    (plain : ¬ t.Recursive r) (mentioned : t.Mentions r q) :
    t.openings limit [] q < t.openings limit [] r := by
  have part : t.openings limit [r] q ≤ ((t.direct r).references.map (t.openings limit [r])).sum :=
    List.single_le_sum (by simp) _ (List.mem_map.mpr ⟨q, mentioned, rfl⟩)
  rw [(t.unrollAlone limit plain mentioned).2] at part
  rw [openingsOpen (r := r) (by simpa using positive)]
  omega

/- A reference that does not occur inside itself is resolved to its binding with all references in it
resolved each by itself, if the whole fits into the budget. -/
theorem resolveDirect (t : ReferenceTable) {r : RefId} (plain : ¬ t.Recursive r)
    (enough : t.openings Unfolder.nestingLimit [] r ≤ Unfolder.expansionLimit) :
    t.resolve r = (t.direct r).substitute t.resolve := by
  have positive : 0 < Unfolder.nestingLimit := by decide
  rw [t.resolveUnrolls enough, unrollOpen (by simpa using positive)]
  apply Ty.substituteCongr
  intro q mentioned
  have less := t.openingsBelow positive plain mentioned
  rw [(t.unrollAlone _ plain mentioned).1, t.resolveUnrolls (by omega)]

/- `full` has for every reference that is met the type it is bound to, with all references in that type
replaced by what `full` has for them. -/
def Replaces (t : ReferenceTable) (full : RefId → Ty) (r : RefId) : Prop :=
  ∀ q, t.Meets r q → full q = (t.direct q).substitute full

/- Without recursion the nesting limit is never met, and unrolling is the one way to replace everything. -/
theorem unrollReplaced (t : ReferenceTable) {limit : Nat} (positive : 0 < limit) {full : RefId → Ty}
    (path : List RefId) (r : RefId) (plain : ∀ q, t.Meets r q → ¬ t.Recursive q)
    (replaces : t.Replaces full r) (apart : ∀ q, t.Meets r q → q ∉ path) :
    t.unroll limit path r = full r := by
  have shallow : path.count r < limit := by
    rw [List.count_eq_zero.mpr (apart r .refl)]
    exact positive
  have below : ∀ q ∈ (t.direct r).references, t.unroll limit (r :: path) q = full q := by
    intro q mentioned
    apply unrollReplaced t positive
    · exact fun p met => plain p (.head mentioned met)
    · exact fun p met => replaces p (.head mentioned met)
    · intro p met
      have other : p ≠ r := by
        rintro rfl
        exact t.notMetBelow (plain p .refl) mentioned met
      exact List.not_mem_cons_of_ne_of_not_mem other (apart p (.head mentioned met))
  rw [unrollOpen shallow, replaces r .refl]
  exact Ty.substituteCongr _ below
termination_by t.room limit path
decreasing_by exact t.roomMentioned mentioned shallow

theorem resolveReplaces (t : ReferenceTable) {r : RefId} (plain : ∀ q, t.Meets r q → ¬ t.Recursive q)
    (enough : t.openings Unfolder.nestingLimit [] r ≤ Unfolder.expansionLimit) : t.Replaces t.resolve r := by
  have cheaper : ∀ q, t.Meets r q →
      t.openings Unfolder.nestingLimit [] q ≤ t.openings Unfolder.nestingLimit [] r := by
    intro q met
    induction met with
    | refl => exact Nat.le_refl _
    | tail before mentioned ih =>
      exact Nat.le_trans (Nat.le_of_lt (t.openingsBelow (by decide) (plain _ before) mentioned)) ih
  intro q met
  exact t.resolveDirect (plain q met) (Nat.le_trans (cheaper q met) enough)

/-- As long as at most 64 bindings are read, the counts and the budget that all branches share make no
difference to a path of its own for every branch. Where nothing is recursive, all bindings are put in place. -/
theorem sharedUnrolls (t : ReferenceTable) {r : RefId} (enough : t.openings 3 [] r ≤ 64) :
    t.resolve r = t.unroll 3 [] r ∧
      ((∀ q, t.Meets r q → ¬ t.Recursive q) →
        t.Replaces t.resolve r ∧ ∀ full, t.Replaces full r → full r = t.resolve r) := by
  refine ⟨t.resolveUnrolls enough, fun plain => ⟨t.resolveReplaces plain enough, ?_⟩⟩
  intro full replaces
  calc
    full r = t.unroll 3 [] r := (t.unrollReplaced (by decide) [] r plain replaces (by simp)).symm
    _ = t.resolve r := (t.resolveUnrolls enough).symm

/- References 1 and 2 are bound to each other, three times in a row; reference 4 costs the whole budget. -/
def crossedTable : ReferenceTable :=
  ⟨4, [(1, .tuple none (List.replicate 3 (.reference 2))), (2, .collection none (.reference 1)),
    (3, .nominal (some 1)), (4, .tuple none (.reference 1 :: List.replicate 11 (.reference 3)))]⟩

/- Reference 2 is a row of 63 times reference 1. -/
def rowTable : ReferenceTable :=
  ⟨2, [(2, .tuple none (List.replicate 63 (.reference 1))), (1, .nominal (some 1))]⟩

/- In both tables the last binding takes the last of the budget. -/
theorem wholeBudget :
    (crossedTable.openings 3 [] 4 = 64 ∧ crossedTable.resolve 4 = crossedTable.unroll 3 [] 4) ∧
      rowTable.openings 3 [] 2 = 64 ∧ (∀ q, rowTable.Meets 2 q → ¬ rowTable.Recursive q) ∧
        rowTable.Replaces rowTable.resolve 2 ∧ ∀ full, rowTable.Replaces full 2 → full 2 = rowTable.resolve 2 := by
  have crossed : crossedTable.openings 3 [] 4 = 64 := by decide +kernel
  have row : rowTable.openings 3 [] 2 = 64 := by decide +kernel
  have plain : ∀ q, rowTable.Meets 2 q → ¬ rowTable.Recursive q := fun q _ => earlierOnly (by decide) q
  have replaced := (sharedUnrolls rowTable (Nat.le_of_eq row)).2 plain
  exact ⟨⟨crossed, (sharedUnrolls crossedTable (Nat.le_of_eq crossed)).1⟩, row, plain, replaced⟩

end GradualTypes.ReferenceTable
