import EphMemory.Orchestrator.Tokens
import EphMemory.Orchestrator.Accounting

/-!
# Orchestrator — who will strike an entry

A region has an allocation in its books exactly as long as someone will still
strike it: the grant that reserved it, the call that took its donor, or
whoever comes to take it while it is parked.

* `bookLaw` — whoever is going to strike an allocation from a region's books,
  or to take it while it is parked, finds it there;
* `freshLaw` — a region has no allocation in its books that a grant still has
  to offer it.

`TokenInv` collects these with the laws of `Tokens.lean`; `TokenInv.move`
carries them over a run.
-/

namespace EphMemory.Orchestrator

open EphMemory.Lib

noncomputable section

-- ---------------------------------------------------------------------------
-- What a region has in its books
-- ---------------------------------------------------------------------------

/-- How many of the reserved allocations a confirmation keeps. -/
def Shared.keeps (s : Shared) (d : DonorAllocation) (requested granted : Nat) : Nat :=
  match s.region? d with
  | none => 0
  | some r => r.finalSize requested granted / granularity

/-- Whether the region `d` has `x` in its books after an operation. -/
def recordedAfter (s : Shared) (d : DonorAllocation) (x : AllocId) : Op → Bool
  | .reserveFromRegion d' _ ids =>
    s.recorded d x || (decide (d' = d) && (s.region? d).isSome && decide (x ∈ ids))
  | .handleReservedAlloc d' ids n m =>
    s.recorded d x && !(decide (d' = d) && decide (x ∈ ids.drop (s.keeps d n m)))
  | .bookkeep d' y => s.recorded d x && !(decide (d' = d) && decide (y = x))
  | _ => s.recorded d x

/-- Reserving puts the listed allocations in the books and leaves the others there. -/
theorem contains_insertAll (m : OrdMap Nat AllocId) (ids : List AllocId) (x : AllocId) :
    (m.insertAll (ids.map fun y => (y, y))).contains x = (m.contains x || decide (x ∈ ids)) := by
  induction ids generalizing m with
  | nil => simp [OrdMap.insertAll]
  | cons y rest ih =>
    rw [List.map_cons, OrdMap.insertAll, ih]
    by_cases hy : x = y
    · simp [OrdMap.contains, hy]
    · simp [OrdMap.contains, hy]

/-- Bookkeeping strikes one allocation. -/
theorem contains_bookkeep (r : DonatableRegion) (x y : AllocId) :
    (r.bookkeep y).allocations.contains x =
      (r.allocations.contains x && !decide (y = x)) := by
  unfold DonatableRegion.bookkeep
  by_cases hy : y = x
  · subst hy
    cases hg : r.allocations.get? y with
    | none => simp [OrdMap.contains, hg]
    | some z => simp [OrdMap.contains]
  · cases hg : r.allocations.get? y with
    | none => simp [hy]
    | some z => simp [OrdMap.contains, Ne.symm hy, hy]

/-- **The books.** Reserving enters, confirming and bookkeeping strike, and
nothing else touches them. -/
theorem recorded_exec (op : Op) (s : Shared) (d : DonorAllocation) (x : AllocId) :
    (op.exec s).recorded d x = recordedAfter s d x op := by
  cases hr : s.region? d with
  | none =>
    have hNone : s.recorded d x = false := by simp [Shared.recorded, hr]
    have hNone' : (op.exec s).recorded d x = false := by
      simp [Shared.recorded, region?_exec_none op hr]
    rw [hNone']
    cases op <;> simp [recordedAfter, hNone, hr]
  | some r =>
    obtain ⟨r', hr', hChange⟩ := regionChange_exec op hr
    have hRec : s.recorded d x = r.allocations.contains x := by simp [Shared.recorded, hr]
    have hRec' : (op.exec s).recorded d x = r'.allocations.contains x := by
      simp [Shared.recorded, hr']
    rw [hRec']
    cases hChange with
    | reserved =>
      simp only [recordedAfter, hRec, hr, DonatableRegion.reserve, contains_insertAll]
      simp
    | confirmed =>
      simp only [recordedAfter, hRec, Shared.keeps, hr, DonatableRegion.handleReservedAlloc,
        OrdMap.contains, OrdMap.get?_eraseAll]
      split <;> simp_all
    | booked =>
      simp only [recordedAfter, hRec, contains_bookkeep]
      simp
    | debt => simp only [recordedAfter, hRec]
    | same h1 h2 h3 _ =>
      have hOp : recordedAfter s d x op = s.recorded d x := by
        cases op with
        | reserveFromRegion d' size ids =>
          have hne : d' ≠ d := fun heq => h1 size ids (by rw [heq])
          simp [recordedAfter, hne]
        | handleReservedAlloc d' ids n m =>
          have hne : d' ≠ d := fun heq => h2 ids n m (by rw [heq])
          simp [recordedAfter, hne]
        | bookkeep d' y =>
          have hne : d' ≠ d := fun heq => h3 y (by rw [heq])
          simp [recordedAfter, hne]
        | _ => rfl
      rw [hOp, hRec]

-- ---------------------------------------------------------------------------
-- Who will strike an entry
-- ---------------------------------------------------------------------------

/-- The allocation is backed by `d` and no one has taken it yet. -/
def EphAllocation.parkedAt (a : EphAllocation) (d : DonorAllocation) : Bool :=
  a.parked && decide (a.donorInfo = some d)

def GiveBack.tokens (d : DonorAllocation) (x : AllocId) (g : GiveBack) : Int :=
  if g.donor = d then
    match g.pc with
    | .send => cnt x g.ids
    | .book todo => cnt x todo
    | .done => 0
  else 0

/-- The allocations grouped under `d`. -/
def groupTokens (d : DonorAllocation) (x : AllocId)
    (groups : List (DonorAllocation × List AllocId)) : Int :=
  Machine.weigh (fun g => if g.1 = d then cnt x g.2 else 0) groups

def ReturnCall.tokens (d : DonorAllocation) (x : AllocId) (r : ReturnCall) : Int :=
  match r.pc with
  | .organize _ _ donorAllocs => groupTokens d x donorAllocs
  | .take _ _ _ donorAllocs => groupTokens d x donorAllocs
  | .check y d' _ _ donorAllocs => ind (d' = d ∧ y = x) + groupTokens d x donorAllocs
  | .release _ donorAllocs => groupTokens d x donorAllocs
  | .giveBack calls => Machine.weigh (GiveBack.tokens d x) calls
  | .done => 0

/-- What a grant has put in the books of `d` and not yet parked. -/
def AllocCall.tokens (d : DonorAllocation) (x : AllocId) (a : AllocCall) : Int :=
  match a.pc with
  | .donate d' size => if d' = d then cnt x (a.rest.take (size / granularity)) else 0
  | .confirm d' size _ => if d' = d then cnt x (a.rest.take (size / granularity)) else 0
  | .handBack d' n _ => if d' = d then cnt x (a.rest.take n) else 0
  | .commit d' n abandoned => if d' = d then cnt x (a.rest.take n) + cnt x abandoned else 0
  | .commitState d' y n abandoned =>
    if d' = d then ind (y = x) + cnt x (a.rest.take n) + cnt x abandoned else 0
  | .giveBack g => g.tokens d x
  | _ => 0

/-- Grouping an allocation under its donor puts it there once. -/
theorem groupTokens_pushGroup (d d' : DonorAllocation) (x y : AllocId)
    (groups : List (DonorAllocation × List AllocId)) :
    groupTokens d x (pushGroup d' y groups) = groupTokens d x groups + ind (d' = d ∧ y = x) := by
  have hOne : (if d' = d then ind (y = x) else 0) = ind (d' = d ∧ y = x) := by
    by_cases hd : d' = d
    · simp [hd]
    · simp [hd]
  unfold groupTokens
  induction groups with
  | nil =>
    simp only [pushGroup, Machine.weigh_cons, Machine.weigh_nil, cnt_cons, cnt_nil, Int.add_zero,
      Int.zero_add]
    exact hOne
  | cons g rest ih =>
    obtain ⟨k, xs⟩ := g
    rw [pushGroup]
    split
    · rename_i hk
      subst hk
      simp only [Machine.weigh_cons, cnt_append, cnt_cons, cnt_nil, Int.add_zero]
      rw [← hOne]
      split <;> omega
    · simp only [Machine.weigh_cons, ih]
      omega

/-- The give-backs of a return strike what was grouped. -/
theorem weigh_giveBack_send (d : DonorAllocation) (x : AllocId)
    (groups : List (DonorAllocation × List AllocId)) :
    Machine.weigh (GiveBack.tokens d x) (groups.map fun g => ⟨g.1, g.2, .send⟩) =
      groupTokens d x groups := by
  unfold groupTokens
  induction groups with
  | nil => rfl
  | cons g rest ih =>
    rw [List.map_cons, Machine.weigh_cons, Machine.weigh_cons, ih]
    rfl

theorem GiveBack.tokens_nonneg (d : DonorAllocation) (x : AllocId) (g : GiveBack) :
    0 ≤ g.tokens d x := by
  unfold tokens
  split
  · split
    · exact cnt_nonneg ..
    · exact cnt_nonneg ..
    · exact Int.le_refl 0
  · exact Int.le_refl 0

theorem groupTokens_nonneg (d : DonorAllocation) (x : AllocId)
    (groups : List (DonorAllocation × List AllocId)) : 0 ≤ groupTokens d x groups := by
  refine Machine.weigh_nonneg (fun g => ?_) groups
  split
  · exact cnt_nonneg ..
  · exact Int.le_refl 0

theorem ReturnCall.tokens_nonneg (d : DonorAllocation) (x : AllocId) (r : ReturnCall) :
    0 ≤ r.tokens d x := by
  unfold tokens
  split
  · exact groupTokens_nonneg ..
  · exact groupTokens_nonneg ..
  · exact Int.add_nonneg (ind_nonneg _) (groupTokens_nonneg ..)
  · exact groupTokens_nonneg ..
  · exact Machine.weigh_nonneg (GiveBack.tokens_nonneg d x) _
  · exact Int.le_refl 0

theorem AllocCall.tokens_nonneg (d : DonorAllocation) (x : AllocId) (a : AllocCall) :
    0 ≤ a.tokens d x := by
  have hCnt := cnt_nonneg x
  unfold tokens
  split
  · split <;> simp [hCnt]
  · split <;> simp [hCnt]
  · split <;> simp [hCnt]
  · split
    · exact Int.add_nonneg (hCnt _) (hCnt _)
    · exact Int.le_refl 0
  · split
    · exact Int.add_nonneg (Int.add_nonneg (ind_nonneg _) (hCnt _)) (hCnt _)
    · exact Int.le_refl 0
  · exact GiveBack.tokens_nonneg ..
  · exact Int.le_refl 0

-- ---------------------------------------------------------------------------
-- The book law
-- ---------------------------------------------------------------------------

/-- What an operation adds to the allocations parked at `d`. -/
def parkGain (d : DonorAllocation) (x : AllocId) (s : Shared) : Op → Int
  | .setDonorInfo y d' =>
    ind (y = x ∧ d' = d ∧ (s.alloc x).parked = true ∧ (s.alloc x).donorInfo = none)
  | .commitState y =>
    ind (y = x ∧ (s.alloc x).state = .pendingCommit ∧ (s.alloc x).donorInfo = some d)
  | .abandon y => - ind (y = x ∧ (s.alloc x).parkedAt d = true)
  | _ => 0

/-- What an operation takes out of the books of `d`. -/
def bookLoss (d : DonorAllocation) (x : AllocId) (s : Shared) : Op → Int
  | .reserveFromRegion d' _ ids =>
    - ind (d' = d ∧ (s.region? d).isSome = true ∧ x ∈ ids ∧ s.recorded d x = false)
  | .handleReservedAlloc d' ids n m => ind (d' = d ∧ x ∈ ids.drop (s.keeps d n m))
  | .bookkeep d' y => ind (d' = d ∧ y = x)
  | _ => 0

def bookMeasure (d : DonorAllocation) (x : AllocId) (s : Shared) : Int :=
  ind ((s.alloc x).parkedAt d = true) - ind (s.recorded d x = true)

def bookWeights (d : DonorAllocation) (x : AllocId) : Weights where
  rsvd _ := 0
  alloc call := call.tokens d x
  release _ := 0
  ret call := call.tokens d x
  claimed _ := 0

def bookGain (d : DonorAllocation) (x : AllocId) (s : Shared) (op : Op) : Int :=
  parkGain d x s op + bookLoss d x s op

/-- An allocation comes to be parked at `d` by being committed with `d` for its donor. -/
theorem parkedAt_exec (d : DonorAllocation) (x : AllocId) (s : Shared) (op : Op) :
    ind (((op.exec s).alloc x).parkedAt d = true) ≤
      ind ((s.alloc x).parkedAt d = true) + parkGain d x s op := by
  have hChange := allocChange_exec op s x
  generalize (op.exec s).alloc x = a at hChange ⊢
  cases hChange with
  | same h1 h2 h3 h4 _ =>
    have hGain : parkGain d x s op = 0 := by
      cases op with
      | setDonorInfo y d' =>
        have hne : y ≠ x := fun heq => h4 d' (by rw [heq])
        simp [parkGain, hne]
      | commitState y =>
        by_cases hy : y = x
        · subst hy
          simp [parkGain, h2 rfl]
        · simp [parkGain, hy]
      | abandon y =>
        have hne : y ≠ x := fun heq => h1 (by rw [heq])
        simp [parkGain, hne]
      | _ => rfl
    omega
  | created _ =>
    rw [ind_false (by simp [EphAllocation.parkedAt, EphAllocation.parked, EphAllocation.new])]
    exact Int.add_nonneg (ind_nonneg _) (Int.le_refl 0)
  | @donorSet d' =>
    cases hd : (s.alloc x).donorInfo with
    | some d'' => simp [parkGain, hd, EphAllocation.parkedAt, EphAllocation.parked]
    | none =>
      have hOld : (s.alloc x).parkedAt d = false := by
        simp [EphAllocation.parkedAt, hd]
      rw [hOld]
      simp only [parkGain, hd, and_true, true_and, Option.none_or]
      rw [ind_false (p := false = true) (by simp), Int.zero_add]
      refine ind_mono fun h => ?_
      simp only [EphAllocation.parkedAt, Bool.and_eq_true, decide_eq_true_eq,
        Option.some.injEq] at h
      exact ⟨h.2, h.1⟩
  | committed hs =>
    have hOld : (s.alloc x).parkedAt d = false := by
      simp [EphAllocation.parkedAt, EphAllocation.parked, hs]
    rw [hOld, ind_false (p := false = true) (by simp), Int.zero_add]
    refine ind_mono fun h => ?_
    simp only [EphAllocation.parkedAt, Bool.and_eq_true, decide_eq_true_eq] at h
    exact ⟨rfl, hs, h.2⟩
  | claimed hs => simp [parkGain, EphAllocation.parkedAt, EphAllocation.parked, hs]
  | abandoned =>
    have hNew : ({ s.alloc x with state := .abandoned } : EphAllocation).parkedAt d = false := by
      simp [EphAllocation.parkedAt, EphAllocation.parked]
    rw [hNew, ind_false (by simp)]
    simp only [parkGain, true_and]
    omega
  | requested _ => exact Int.le_of_eq (Int.add_zero _).symm
  | marked _ => exact Int.le_of_eq (Int.add_zero _).symm

/-- Only what an operation strikes leaves the books. -/
theorem recorded_exec_ge (d : DonorAllocation) (x : AllocId) (s : Shared) (op : Op) :
    ind (s.recorded d x = true) ≤ ind ((op.exec s).recorded d x = true) + bookLoss d x s op := by
  rw [recorded_exec]
  have hOne := ind_le_one (s.recorded d x = true)
  have hNonneg := ind_nonneg (recordedAfter s d x op = true)
  cases op with
  | reserveFromRegion d' size ids =>
    have hAfter : ind (s.recorded d x = true) +
        ind (d' = d ∧ (s.region? d).isSome = true ∧ x ∈ ids ∧ s.recorded d x = false) ≤
          ind (recordedAfter s d x (.reserveFromRegion d' size ids) = true) := by
      by_cases hRec : s.recorded d x = true
      · rw [ind_true hRec, ind_false (by simp [hRec]), ind_true (by simp [recordedAfter, hRec])]
        omega
      · rw [ind_false hRec, Int.zero_add]
        refine ind_mono fun h => ?_
        simp [recordedAfter, h.1, h.2.1, h.2.2.1]
    show _ ≤ _ + - ind (d' = d ∧ (s.region? d).isSome = true ∧ x ∈ ids ∧ s.recorded d x = false)
    omega
  | handleReservedAlloc d' ids n m =>
    show _ ≤ _ + ind (d' = d ∧ x ∈ ids.drop (s.keeps d n m))
    by_cases h : d' = d ∧ x ∈ ids.drop (s.keeps d n m)
    · rw [ind_true h]
      omega
    · rw [ind_false h, Int.add_zero]
      refine ind_mono fun hRec => ?_
      rw [recordedAfter, hRec, Bool.true_and, Bool.not_eq_true', ← Bool.not_eq_true,
        Bool.and_eq_true, decide_eq_true_eq, decide_eq_true_eq]
      exact h
  | bookkeep d' y =>
    show _ ≤ _ + ind (d' = d ∧ y = x)
    by_cases h : d' = d ∧ y = x
    · rw [ind_true h]
      omega
    · rw [ind_false h, Int.add_zero]
      refine ind_mono fun hRec => ?_
      rw [recordedAfter, hRec, Bool.true_and, Bool.not_eq_true', ← Bool.not_eq_true,
        Bool.and_eq_true, decide_eq_true_eq, decide_eq_true_eq]
      exact h
  | _ => exact Int.le_of_eq (Int.add_zero _).symm

/-- What was parked or is struck shows in the measure. -/
theorem bookMeasure_exec (d : DonorAllocation) (x : AllocId) (s : Shared) (op : Op) :
    bookMeasure d x (op.exec s) ≤ bookMeasure d x s + bookGain d x s op := by
  have h1 := parkedAt_exec d x s op
  have h2 := recorded_exec_ge d x s op
  unfold bookMeasure bookGain
  omega

/-- What is taken was parked, with the donor it is taken for. -/
theorem abandonOrTakeDonor_some {a : EphAllocation} {d : DonorAllocation}
    (h : a.abandonOrTakeDonor.1 = some d) : a.parked = true ∧ a.donorInfo = some d := by
  obtain ⟨offset, vm, state, donor, dcd, req⟩ := a
  cases state with
  | committed => exact ⟨rfl, h⟩
  | pendingRelease => exact ⟨rfl, h⟩
  | pendingCommit => cases h
  | abandoned => cases h

/-- A give-back strikes each allocation of its group once. -/
theorem GiveBack.Step.tokens_le {s : Shared} {g g' : GiveBack} {op : Op}
    (h : GiveBack.Step s g op g') (d : DonorAllocation) (x : AllocId) :
    g'.tokens d x + bookGain d x s op ≤ g.tokens d x := by
  have hCnt := cnt_nonneg x
  cases h with
  | @sent d' ids => simp [GiveBack.tokens, bookGain, parkGain, bookLoss]
  | @failed d' ids =>
    simp only [GiveBack.tokens, bookGain, parkGain, bookLoss]
    split <;> simp [hCnt]
  | @book d' ids todo y _ =>
    simp only [GiveBack.tokens, bookGain, parkGain, bookLoss]
    by_cases hd : d' = d
    · simp [hd, add_comm]
    · simp [hd]
  | @booked d' ids => simp [GiveBack.tokens, bookGain, parkGain, bookLoss]

/-- A return that takes an allocation from where it is parked goes on to strike it. -/
theorem ReturnCall.Step.tokens_le {tid : Tid} {s : Shared} {r r' : ReturnCall} {op : Op}
    (h : ReturnCall.Step tid s r op r') (d : DonorAllocation) (x : AllocId) :
    r'.tokens d x + bookGain d x s op ≤ r.tokens d x := by
  have hNop : bookGain d x s .nop = 0 := rfl
  cases h with
  | @notTaken allocs todo y cons dons _ =>
    have h1 := ind_nonneg (y = x ∧ (s.alloc x).parkedAt d = true)
    simp only [ReturnCall.tokens, bookGain, parkGain, bookLoss]
    omega
  | @taken allocs todo y cons dons d' hTake =>
    have h1 : ind (d' = d ∧ y = x) ≤ ind (y = x ∧ (s.alloc x).parkedAt d = true) := by
      refine ind_mono fun h => ?_
      obtain ⟨rfl, rfl⟩ := h
      have hParked := abandonOrTakeDonor_some hTake
      exact ⟨rfl, by simp [EphAllocation.parkedAt, hParked.1, hParked.2]⟩
    simp only [ReturnCall.tokens, bookGain, parkGain, bookLoss]
    omega
  | donorThere _ =>
    simp only [ReturnCall.tokens, hNop, groupTokens_pushGroup]
    omega
  | @donorGone allocs todo y cons dons d' _ =>
    have h1 := ind_nonneg (d' = d ∧ y = x)
    simp only [ReturnCall.tokens, hNop]
    omega
  | release _ hr =>
    have hZero : bookGain d x s op = 0 := by
      cases hr <;> rfl
    simp only [ReturnCall.tokens, hZero]
    omega
  | released _ =>
    simp only [ReturnCall.tokens, hNop, weigh_giveBack_send]
    omega
  | giveBack hg hStep =>
    have hLe := hStep.tokens_le d x
    simp only [ReturnCall.tokens, Machine.weigh_set _ hg]
    omega
  | @returned allocs calls _ =>
    have h1 := Machine.weigh_nonneg (GiveBack.tokens_nonneg d x) calls
    simp only [ReturnCall.tokens, hNop]
    omega
  | _ =>
    simp only [ReturnCall.tokens, hNop]
    omega

/-- What a grant has not put in the books of `d`. -/
def AllocCall.fresh (d : DonorAllocation) (x : AllocId) (a : AllocCall) : Int :=
  match a.pc with
  | .donate d' size =>
    if d' = d then cnt x (a.rest.drop (size / granularity)) else cnt x a.rest
  | .confirm d' size _ =>
    if d' = d then cnt x (a.rest.drop (size / granularity)) else cnt x a.rest
  | .handBack d' n _ => if d' = d then cnt x (a.rest.drop n) else cnt x a.rest
  | .commit d' n _ => if d' = d then cnt x (a.rest.drop n) else cnt x a.rest
  | .commitState d' _ n _ => if d' = d then cnt x (a.rest.drop n) else cnt x a.rest
  | .done => 0
  | _ => cnt x a.rest

theorem AllocCall.fresh_nonneg (d : DonorAllocation) (x : AllocId) (a : AllocCall) :
    0 ≤ a.fresh d x := by
  have hCnt := cnt_nonneg x
  unfold fresh
  split
  all_goals first
    | exact Int.le_refl 0
    | exact hCnt _
    | (split <;> exact hCnt _)

/-- The slice a confirmation keeps and the slice it strikes. -/
theorem cnt_kept_add_struck (x : AllocId) {rest : List AllocId} {n k : Nat}
    (hk : k ≤ (rest.take n).length) :
    cnt x (rest.take k) + cnt x ((rest.take n).drop k) = cnt x (rest.take n) := by
  have hMin : min k n = k := by
    rw [List.length_take] at hk
    omega
  have hTake : (rest.take n).take k = rest.take k := by
    rw [List.take_take, hMin]
  rw [← hTake]
  exact cnt_take_add_drop x k (rest.take n)

/-- A refused grant keeps nothing. -/
theorem Shared.keeps_refused (s : Shared) (d : DonorAllocation) (n : Nat) : s.keeps d n 0 = 0 := by
  unfold Shared.keeps
  split
  · rfl
  · simp [DonatableRegion.finalSize, DonatableRegion.usableGrant]

/-- How many a confirmation keeps, the region's debt decides. -/
theorem Shared.keeps_of_region {s : Shared} {d : DonorAllocation} {r : DonatableRegion}
    (hr : s.region? d = some r) (n m : Nat) :
    s.keeps d n m = r.finalSize n m / granularity := by
  simp [Shared.keeps, hr]

/-- What a grant has entered it strikes, parks or keeps for later. -/
theorem AllocCall.Step.tokens_le {s : Shared} {a a' : AllocCall} {op : Op}
    (h : AllocCall.Step s a op a') (d : DonorAllocation) (x : AllocId)
    (hParked : (s.alloc x).parked = true → (s.alloc x).donorInfo ≠ none)
    (hDonor : match a.pc with
      | .commitState d' y _ _ => (s.alloc y).donorInfo = some d'
      | _ => True)
    (hFresh : ind (s.recorded d x = true) + a.fresh d x ≤ 1) :
    a'.tokens d x + bookGain d x s op ≤ a.tokens d x := by
  have hCnt := cnt_nonneg x
  -- a confirmation strikes at most what the grant had put in the books
  have hStrike : ∀ (d' : DonorAllocation) (ids : List AllocId) (n m : Nat),
      bookGain d x s (.handleReservedAlloc d' ids n m) ≤
        if d' = d then cnt x (ids.drop (s.keeps d n m)) else 0 := by
    intro d' ids n m
    have h1 := ind_mem_le_cnt x (ids.drop (s.keeps d n m))
    show 0 + ind (d' = d ∧ x ∈ ids.drop (s.keeps d n m)) ≤ _
    by_cases hd : d' = d
    · simpa [hd] using h1
    · simp [hd]
  cases h with
  | @reserve backed rest last v vms r size hLock hr hRoom hSize hLe =>
    simp only [AllocCall.fresh] at hFresh
    have hSplit := cnt_take_add_drop x (size / granularity) rest
    have hDrop := hCnt (rest.drop (size / granularity))
    simp only [AllocCall.tokens, bookGain, parkGain, bookLoss]
    by_cases hd : (⟨v, r.path⟩ : DonorAllocation) = d
    · subst hd
      rw [if_pos rfl]
      by_cases hx : x ∈ rest.take (size / granularity)
      · have hOne := one_le_cnt_iff.mpr hx
        have hNot : s.recorded ⟨v, r.path⟩ x = false := by
          rw [← Bool.not_eq_true]
          intro hRec
          rw [ind_true hRec] at hFresh
          omega
        rw [ind_false (by simp [hNot])] at hFresh
        simp only [hr, hx, hNot, Option.isSome_some, and_self, ind_true]
        omega
      · have hZero := cnt_eq_zero_iff.mpr hx
        have hInd := ind_nonneg ((⟨v, r.path⟩ : DonorAllocation) = ⟨v, r.path⟩ ∧
          (s.region? ⟨v, r.path⟩).isSome = true ∧ x ∈ rest.take (size / granularity) ∧
            s.recorded ⟨v, r.path⟩ x = false)
        omega
    · simp [hd]
  | donate =>
    simp [AllocCall.tokens, bookGain, parkGain, bookLoss]
  | @refused backed rest last d' size _ =>
    have hLoss := hStrike d' (rest.take (size / granularity)) size 0
    have hSplit := cnt_take_add_drop x (s.keeps d size 0) (rest.take (size / granularity))
    have hTake := hCnt ((rest.take (size / granularity)).take (s.keeps d size 0))
    simp only [AllocCall.tokens]
    by_cases hd : d' = d <;> simp only [hd, if_true, if_false] at hLoss ⊢ <;> omega
  | @regionGone backed rest last d' size granted _ =>
    have hLoss := hStrike d' (rest.take (size / granularity)) size granted
    have hSplit := cnt_take_add_drop x (s.keeps d size granted) (rest.take (size / granularity))
    have hTake := hCnt ((rest.take (size / granularity)).take (s.keeps d size granted))
    simp only [AllocCall.tokens, List.take_zero, cnt_nil]
    by_cases hd : d' = d <;> simp only [hd, if_true, if_false] at hLoss ⊢ <;> omega
  | @owing backed rest last d' size granted r _ hr hLe =>
    have hLoss := hStrike d' (rest.take (size / granularity)) size granted
    have hSplit := cnt_kept_add_struck x hLe
    simp only [AllocCall.tokens]
    by_cases hd : d' = d
    · subst hd
      rw [Shared.keeps_of_region hr] at hLoss
      simp only [if_true] at hLoss ⊢
      omega
    · simp only [hd, if_false] at hLoss ⊢
      omega
  | @confirmed backed rest last d' size granted r _ hr hLe _ =>
    have hLoss := hStrike d' (rest.take (size / granularity)) size granted
    have hSplit := cnt_kept_add_struck x hLe
    simp only [AllocCall.tokens, cnt_nil]
    by_cases hd : d' = d
    · subst hd
      rw [Shared.keeps_of_region hr] at hLoss
      simp only [if_true] at hLoss ⊢
      omega
    · simp only [hd, if_false] at hLoss ⊢
      omega
  | handBack =>
    simp [AllocCall.tokens, bookGain, parkGain, bookLoss]
  | allLive =>
    simp [AllocCall.tokens, bookGain, parkGain, bookLoss]
  | someAbandoned =>
    simp [AllocCall.tokens, GiveBack.tokens, bookGain, parkGain, bookLoss]
  | @commitOut backed abandoned last d' n =>
    simp only [AllocCall.tokens, bookGain, parkGain, bookLoss]
    split <;> simp [hCnt]
  | @setDonor backed rest abandoned last d' n y hNone =>
    have hZero : parkGain d x s (.setDonorInfo y d') = 0 := by
      simp only [parkGain]
      refine ind_false fun hc => hParked hc.2.2.1 hc.2.2.2
    simp only [AllocCall.tokens, bookGain, bookLoss, hZero, List.take_succ_cons, cnt_cons]
    split <;> omega
  | @donorSet backed rest abandoned last d' n y _ =>
    have h1 := hCnt ((y :: rest).take (n + 1))
    have h2 := hCnt abandoned
    simp only [AllocCall.tokens, bookGain, parkGain, bookLoss]
    split <;> omega
  | @committedTwice backed rest abandoned last d' n y hs =>
    have hZero : parkGain d x s (.commitState y) = 0 := by
      simp only [parkGain]
      refine ind_false fun hc => ?_
      rw [hc.1] at hs
      simp [EphAllocation.parked, hc.2.1] at hs
    have h1 := hCnt (rest.take n)
    have h2 := hCnt abandoned
    have h3 := ind_nonneg (y = x)
    simp only [AllocCall.tokens, bookGain, bookLoss, hZero]
    split <;> omega
  | @live backed rest abandoned last d' n y hs =>
    simp only at hDonor
    have hGain : parkGain d x s (.commitState y) ≤ if d' = d then ind (y = x) else 0 := by
      simp only [parkGain]
      by_cases hd : d' = d
      · rw [if_pos hd]
        exact ind_mono fun hc => hc.1
      · rw [if_neg hd]
        refine Int.le_of_eq (ind_false fun hc => hd ?_)
        rw [← hc.1, hDonor] at hc
        exact Option.some.inj hc.2.2
    simp only [AllocCall.tokens, bookGain, bookLoss]
    by_cases hd : d' = d <;> simp only [hd, if_true, if_false] at hGain ⊢ <;> omega
  | @dead backed rest abandoned last d' n y hs =>
    have hZero : parkGain d x s (.commitState y) = 0 := by
      simp only [parkGain]
      refine ind_false fun hc => ?_
      rw [hc.1, hc.2.1] at hs
      cases hs
    simp only [AllocCall.tokens, bookGain, bookLoss, hZero, cnt_append, cnt_cons, cnt_nil]
    split <;> omega
  | giveBack hg => exact hg.tokens_le d x
  | @gaveBack backed rest last g _ =>
    exact GiveBack.tokens_nonneg d x g
  | confirmOut _ =>
    simp only [AllocCall.tokens, bookGain, parkGain, bookLoss]
    split <;> simp [hCnt]
  | _ => exact Int.le_refl 0

/-- What an operation adds to the books of `d`. -/
def freshGain (d : DonorAllocation) (x : AllocId) (s : Shared) : Op → Int
  | .reserveFromRegion d' _ ids => ind (d' = d ∧ x ∈ ids)
  | .handleReservedAlloc d' ids n m =>
    - ind (d' = d ∧ x ∈ ids.drop (s.keeps d n m) ∧ s.recorded d x = true)
  | op => - created x s op

def freshMeasure (d : DonorAllocation) (x : AllocId) (s : Shared) : Int :=
  ind (s.recorded d x = true) - ind (x < s.nextId)

def freshWeights (d : DonorAllocation) (x : AllocId) : Weights where
  rsvd l := cnt x l
  alloc call := call.fresh d x
  release _ := 0
  ret _ := 0
  claimed _ := 0

/-- What an operation enters was to be offered. -/
theorem freshMeasure_exec (d : DonorAllocation) (x : AllocId) (s : Shared) (op : Op) :
    freshMeasure d x (op.exec s) ≤ freshMeasure d x s + freshGain d x s op := by
  have hNext := ind_lt_nextId_exec x s op
  unfold freshMeasure
  rw [recorded_exec]
  cases op with
  | reserveFromRegion d' size ids =>
    simp only [created] at hNext
    have hAfter : ind (recordedAfter s d x (.reserveFromRegion d' size ids) = true) ≤
        ind (s.recorded d x = true) + ind (d' = d ∧ x ∈ ids) := by
      by_cases hRec : s.recorded d x = true
      · have h1 := ind_le_one (recordedAfter s d x (.reserveFromRegion d' size ids) = true)
        have h2 := ind_nonneg (d' = d ∧ x ∈ ids)
        rw [ind_true hRec]
        omega
      · rw [ind_false hRec, Int.zero_add]
        refine ind_mono fun h => ?_
        rw [Bool.not_eq_true] at hRec
        simp only [recordedAfter, hRec, Bool.false_or, Bool.and_eq_true, decide_eq_true_eq] at h
        exact ⟨h.1.1, h.2⟩
    simp only [freshGain]
    omega
  | handleReservedAlloc d' ids n m =>
    simp only [created] at hNext
    have hAfter : ind (recordedAfter s d x (.handleReservedAlloc d' ids n m) = true) +
        ind (d' = d ∧ x ∈ ids.drop (s.keeps d n m) ∧ s.recorded d x = true) ≤
          ind (s.recorded d x = true) := by
      by_cases h : d' = d ∧ x ∈ ids.drop (s.keeps d n m)
      · have hGone : recordedAfter s d x (.handleReservedAlloc d' ids n m) = false := by
          simp [recordedAfter, h.1, h.2]
        rw [hGone, ind_false (p := false = true) (by simp), Int.zero_add]
        exact ind_mono fun hc => hc.2.2
      · rw [ind_false (p := d' = d ∧ _) fun hc => h ⟨hc.1, hc.2.1⟩, Int.add_zero]
        refine ind_mono fun hRec => ?_
        simp only [recordedAfter, Bool.and_eq_true] at hRec
        exact hRec.1
    simp only [freshGain]
    omega
  | bookkeep d' y =>
    have hAfter : ind (recordedAfter s d x (.bookkeep d' y) = true) ≤
        ind (s.recorded d x = true) := by
      refine ind_mono fun hRec => ?_
      simp only [recordedAfter, Bool.and_eq_true] at hRec
      exact hRec.1
    simp only [freshGain]
    omega
  | _ =>
    simp only [freshGain, recordedAfter]
    omega

/-- What a grant has entered at `d` it does not offer `d` again, unless it was struck. -/
theorem AllocCall.Step.fresh_le {s : Shared} {a a' : AllocCall} {op : Op}
    (h : AllocCall.Step s a op a') (d : DonorAllocation) (x : AllocId)
    (hBook : a.tokens d x ≤ ind (s.recorded d x = true)) :
    a'.fresh d x + freshGain d x s op ≤ a.fresh d x := by
  have hCnt := cnt_nonneg x
  -- what a confirmation strikes was in the books, once
  have hStruck : ∀ (d' : DonorAllocation) (ids : List AllocId) (n m : Nat),
      (d' = d → cnt x ids ≤ ind (s.recorded d x = true)) → d' = d →
      cnt x (ids.drop (s.keeps d n m)) + freshGain d x s (.handleReservedAlloc d' ids n m) ≤ 0 := by
    intro d' ids n m hIds hd
    have hSplit := cnt_take_add_drop x (s.keeps d n m) ids
    have hTake := hCnt (ids.take (s.keeps d n m))
    have hOne := ind_le_one (s.recorded d x = true)
    have hLe := hIds hd
    by_cases hx : x ∈ ids.drop (s.keeps d n m)
    · have hPos := one_le_cnt_iff.mpr hx
      have hRec : s.recorded d x = true := by
        by_contra hNot
        rw [ind_false hNot] at hLe
        omega
      simp only [freshGain, hd, hx, hRec, and_self, ind_true]
      omega
    · have hZero := cnt_eq_zero_iff.mpr hx
      have hNonneg := ind_nonneg (d' = d ∧ x ∈ ids.drop (s.keeps d n m) ∧ s.recorded d x = true)
      simp only [freshGain]
      omega
  have hNone : ∀ (d' : DonorAllocation) (ids : List AllocId) (n m : Nat),
      freshGain d x s (.handleReservedAlloc d' ids n m) ≤ 0 := by
    intro d' ids n m
    have := ind_nonneg (d' = d ∧ x ∈ ids.drop (s.keeps d n m) ∧ s.recorded d x = true)
    simp only [freshGain]
    omega
  cases h with
  | @reserve backed rest last v vms r size _ _ _ _ _ =>
    have hSplit := cnt_take_add_drop x (size / granularity) rest
    have hMem := ind_mem_le_cnt x (rest.take (size / granularity))
    simp only [AllocCall.fresh, freshGain]
    by_cases hd : (⟨v, r.path⟩ : DonorAllocation) = d
    · simp only [hd, if_true, true_and]
      omega
    · simp [hd]
  | @refused backed rest last d' size _ =>
    simp only [AllocCall.tokens] at hBook
    have hLe := hNone d' (rest.take (size / granularity)) size 0
    simp only [AllocCall.fresh]
    by_cases hd : d' = d
    · simp only [hd, if_true] at hBook
      have hGone := hStruck d' (rest.take (size / granularity)) size 0 (fun _ => hBook) hd
      rw [Shared.keeps_refused, List.drop_zero] at hGone
      have hSplit := cnt_take_add_drop x (size / granularity) rest
      simp only [hd, if_true] at hGone ⊢
      omega
    · simp only [hd, if_false]
      omega
  | @regionGone backed rest last d' size granted hr =>
    simp only [AllocCall.tokens] at hBook
    have hLe := hNone d' (rest.take (size / granularity)) size granted
    have hSplit := cnt_take_add_drop x (size / granularity) rest
    simp only [AllocCall.fresh, List.drop_zero]
    by_cases hd : d' = d
    · subst hd
      have hNot : s.recorded d' x = false := by simp [Shared.recorded, hr]
      rw [hNot, ind_false (p := false = true) (by simp)] at hBook
      simp only [if_true] at hBook ⊢
      omega
    · simp only [hd, if_false]
      omega
  | @owing backed rest last d' size granted r _ hr hLe =>
    simp only [AllocCall.tokens] at hBook
    have hLe' := hNone d' (rest.take (size / granularity)) size granted
    have hKept := cnt_kept_add_struck x hLe
    have hSplit := cnt_take_add_drop x (size / granularity) rest
    have hSplit' := cnt_take_add_drop x (r.finalSize size granted / granularity) rest
    simp only [AllocCall.fresh]
    by_cases hd : d' = d
    · subst hd
      simp only [if_true] at hBook
      have hGone := hStruck d' (rest.take (size / granularity)) size granted (fun _ => hBook) rfl
      rw [Shared.keeps_of_region hr] at hGone
      simp only [if_true]
      omega
    · simp only [hd, if_false]
      omega
  | @confirmed backed rest last d' size granted r _ hr hLe _ =>
    simp only [AllocCall.tokens] at hBook
    have hLe' := hNone d' (rest.take (size / granularity)) size granted
    have hKept := cnt_kept_add_struck x hLe
    have hSplit := cnt_take_add_drop x (size / granularity) rest
    have hSplit' := cnt_take_add_drop x (r.finalSize size granted / granularity) rest
    simp only [AllocCall.fresh]
    by_cases hd : d' = d
    · subst hd
      simp only [if_true] at hBook
      have hGone := hStruck d' (rest.take (size / granularity)) size granted (fun _ => hBook) rfl
      rw [Shared.keeps_of_region hr] at hGone
      simp only [if_true]
      omega
    · simp only [hd, if_false]
      omega
  | @setDonor backed rest abandoned last d' n y _ =>
    have hInd := ind_nonneg (y = x)
    simp only [AllocCall.fresh, freshGain, created, List.drop_succ_cons, cnt_cons]
    split <;> omega
  | @donate backed rest last d' size granted =>
    simp only [AllocCall.fresh, freshGain, created]
    split <;> omega
  | @handBack backed rest last d' n toRevoke ok =>
    simp only [AllocCall.fresh, freshGain, created]
    split <;> omega
  | giveBack hg => cases hg <;> exact Int.le_of_eq (Int.add_zero _)
  | @allLive backed rest last d' =>
    simp only [AllocCall.fresh, freshGain, created, List.drop_zero]
    split <;> omega
  | @someAbandoned backed rest abandoned last d' =>
    simp only [AllocCall.fresh, freshGain, created, List.drop_zero]
    split <;> omega
  | live _ => exact Int.le_of_eq (Int.add_zero _)
  | dead _ => exact Int.le_of_eq (Int.add_zero _)
  | look => exact Int.le_of_eq (Int.add_zero _)
  | full => exact Int.le_of_eq (Int.add_zero _)
  | committedTwice _ => exact AllocCall.fresh_nonneg d x _
  | _ => exact AllocCall.fresh_nonneg d x _

-- ---------------------------------------------------------------------------
-- The laws over a run
-- ---------------------------------------------------------------------------

theorem bookWeights_nonneg (d : DonorAllocation) (x : AllocId) (t : Task) :
    0 ≤ (bookWeights d x).task t :=
  Weights.task_nonneg (fun _ => Int.le_refl 0) (AllocCall.tokens_nonneg d x)
    (fun _ => Int.le_refl 0) (ReturnCall.tokens_nonneg d x) (fun _ => Int.le_refl 0) t

theorem freshWeights_nonneg (d : DonorAllocation) (x : AllocId) (t : Task) :
    0 ≤ (freshWeights d x).task t :=
  Weights.task_nonneg (cnt_nonneg x) (AllocCall.fresh_nonneg d x) (fun _ => Int.le_refl 0)
    (fun _ => Int.le_refl 0) (fun _ => Int.le_refl 0) t

/-- Whoever is going to strike `x` from the books of `d`, or to take it while
it is parked there, finds it in the books. -/
def bookLaw (s : System) : Prop :=
  ∀ d x, Machine.total (bookMeasure d x) (bookWeights d x).task s ≤ 0

/-- What a grant still has to offer `d` is not in the books of `d`. -/
def freshLaw (s : System) : Prop :=
  ∀ d x, Machine.total (freshMeasure d x) (freshWeights d x).task s ≤ 0

/-- What a thread will strike and what is parked is in the books, and never both. -/
theorem bookLaw.held {s : System} (h : bookLaw s) {i : Nat} {t : Task}
    (ht : s.tasks[i]? = some t) (d : DonorAllocation) (x : AllocId) :
    (bookWeights d x).task t + ind ((s.shared.alloc x).parkedAt d = true) ≤
      ind (s.shared.recorded d x = true) := by
  have hTotal := h d x
  have hTask := Machine.le_weigh (bookWeights_nonneg d x) ht
  simp only [Machine.total, bookMeasure] at hTotal
  omega

/-- What a grant still has to offer exists and is not in the books. -/
theorem freshLaw.offered {s : System} (h : freshLaw s) {i : Nat} {t : Task}
    (ht : s.tasks[i]? = some t) (d : DonorAllocation) (x : AllocId) :
    ind (s.shared.recorded d x = true) + (freshWeights d x).task t ≤
      ind (x < s.shared.nextId) := by
  have hTotal := h d x
  have hTask := Machine.le_weigh (freshWeights_nonneg d x) ht
  simp only [Machine.total, freshMeasure] at hTotal
  omega

/-- The laws of the tokens. -/
structure TokenInv (s : System) : Prop where
  rest : restLaw s
  commit : commitLaw s
  parked : parkedLaw s.shared
  donorSet : ∀ (i : Nat) (t : Task), s.tasks[i]? = some t → t.DonorSet s.shared
  book : bookLaw s
  fresh : freshLaw s

/-- A parked allocation has a donor. -/
theorem TokenInv.parked_donorInfo {s : System} (h : TokenInv s) {x : AllocId}
    (hx : (s.shared.alloc x).parked = true) : (s.shared.alloc x).donorInfo ≠ none := by
  intro hNone
  have h1 := h.parked x hx
  have h2 := h.commit.commits_le x
  rw [ind_false (not_not_intro hNone)] at h2
  omega

/-- Every thread pays for what it enters, strikes and parks. -/
theorem bookWeights_pays {s : System} (h : TokenInv s) (d : DonorAllocation) (x : AllocId) :
    (bookWeights d x).Pays (bookGain d x s.shared) s where
  plain op hOp := by cases op <;> first | exact Int.le_refl 0 | cases hOp
  rsvd_nil := rfl
  reserve v n l := Int.le_refl 0
  reserved l := Int.le_refl 0
  alloc i v call call' l op ht hStep := by
    refine hStep.tokens_le d x h.parked_donorInfo (h.donorSet i _ ht) ?_
    have hOffer : _ + call.fresh d x ≤ _ := h.fresh.offered ht d x
    exact le_trans hOffer (ind_le_one _)
  allocated v call hDone := AllocCall.tokens_nonneg d x call
  release tid r r' op hStep := by
    cases hStep <;> exact Int.le_refl 0
  released _ _ := Int.le_refl 0
  start _ := Int.le_refl 0
  ret _ _ r r' op _ _ hStep := hStep.tokens_le d x
  returned r _ := ReturnCall.tokens_nonneg d x r
  claimed_nil := Int.le_refl 0
  claim _ _ _ _ := Int.le_refl 0
  pass _ _ _ := Int.le_refl 0
  giveBack _ := Int.le_refl 0

/-- Every thread pays for what it offers. -/
theorem freshWeights_pays {s : System} (h : TokenInv s) (d : DonorAllocation) (x : AllocId) :
    (freshWeights d x).Pays (freshGain d x s.shared) s where
  plain op hOp := by cases op <;> first | exact Int.le_refl 0 | cases hOp
  rsvd_nil := rfl
  reserve v n l := by
    show cnt x (l ++ s.shared.newIds v n) + - cnt x (s.shared.newIds v n) ≤ cnt x l
    rw [cnt_append]
    omega
  reserved l := Int.le_refl _
  alloc i v call call' l op ht hStep := by
    refine hStep.fresh_le d x ?_
    have hHeld : call.tokens d x + _ ≤ _ := h.book.held ht d x
    have hNonneg := ind_nonneg ((s.shared.alloc x).parkedAt d = true)
    omega
  allocated v call _ := AllocCall.fresh_nonneg d x call
  release tid r r' op hStep := by
    cases hStep <;> exact Int.le_refl 0
  released _ _ := Int.le_refl 0
  start _ := Int.le_refl 0
  ret _ _ r r' op _ _ hStep := by
    have hOp := hStep.ofReturn
    cases op <;> first | exact Int.le_refl 0 | cases hOp
  returned _ _ := Int.le_refl 0
  claimed_nil := Int.le_refl 0
  claim _ _ _ _ := Int.le_refl 0
  pass _ _ _ := Int.le_refl 0
  giveBack _ := Int.le_refl 0

/-- The laws hold on, each by what its threads pay. -/
theorem TokenInv.move {s s' : System} {op : Op} (h : TokenInv s)
    (hm : orchestrator.Move s op s') : TokenInv s' where
  rest := h.rest.move hm
  commit := h.commit.move h.rest hm
  parked := by
    rw [hm.shared_eq]
    exact h.parked.exec op
  donorSet := by
    refine forall_tasks (J := fun _ s t => t.DonorSet s) hm h.donorSet
      (fun i t t' started _ hs => ?_) (fun started hs j u hu => ?_) (fun _ _ _ hu => ?_)
    · have hStep := donorSet_step hs
      exact ⟨hStep.1, fun _ => hStep.2⟩
    · cases hs with
      | request => rw [List.mem_singleton.mp hu]; trivial
      | _ => cases hu
    · exact donorSet_stable op (fun _ => h.rest.donorInfo_none) hu
  book d x := le_trans
    (Weights.total_le hm (bookMeasure_exec d x s.shared op) (bookWeights_pays h d x)) (h.book d x)
  fresh d x := le_trans
    (Weights.total_le hm (freshMeasure_exec d x s.shared op) (freshWeights_pays h d x))
    (h.fresh d x)

theorem tokenInv_init {vm : VmId → Vm} {donor : VmId → DonorState} (hFresh : FreshDonors donor) :
    TokenInv (initSystem vm donor) := by
  have hNot : ∀ d x, (initShared vm donor).recorded d x = false := by
    intro d x
    unfold Shared.recorded
    split
    · rfl
    · rename_i r hr
      rw [hFresh d.donorVm r (region?_mem hr)]
      rfl
  refine ⟨fun x => ?_, fun x => ?_, fun x hx => ?_, ?_, fun d x => ?_, fun d x => ?_⟩
  · have := ind_nonneg (x < (initSystem vm donor).shared.nextId)
    show ind ((none : Option DonorAllocation) ≠ none) - _ + 0 ≤ 0
    rw [ind_false (by simp)]
    omega
  · show 0 - ind ((none : Option DonorAllocation) ≠ none) + 0 ≤ 0
    rw [ind_false (by simp)]
    omega
  · cases hx
  · intro i t ht
    have hMem := List.mem_of_getElem? ht
    simp only [initSystem, List.mem_cons, List.not_mem_nil, or_false] at hMem
    rcases hMem with rfl | rfl <;> trivial
  · show ind (((initShared vm donor).alloc x).parkedAt d = true) - _ + 0 ≤ 0
    have := ind_nonneg ((initSystem vm donor).shared.recorded d x = true)
    rw [ind_false (p := ((initShared vm donor).alloc x).parkedAt d = true) Bool.false_ne_true]
    omega
  · show ind ((initShared vm donor).recorded d x = true) - _ + 0 ≤ 0
    have := ind_nonneg (x < (initSystem vm donor).shared.nextId)
    rw [hNot, ind_false (p := false = true) (by simp)]
    omega

end

end EphMemory.Orchestrator
