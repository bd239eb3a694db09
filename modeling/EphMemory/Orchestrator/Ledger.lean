import EphMemory.Orchestrator.Debt

/-!
# Orchestrator — the donor's ledger

What a donor granted, less what was returned to it, is what the region has in
its books plus what the calls in progress still have to settle. The calls
settle everything they owe, so between them the ledger balances.

* `ledger` — granted less returned less booked, in bytes;
* `AllocCall.owes`, `GiveBack.owes` — what a call in progress has still to
  settle;
* `LedgerInv` — the two agree along every run in which no donor grants more
  than it was asked for and every return succeeds;
* `donor_ledger` — the balance in a state between calls.
-/

namespace EphMemory.Orchestrator

open EphMemory.Lib

-- ---------------------------------------------------------------------------
-- The ledger
-- ---------------------------------------------------------------------------

def Output.granted (d : DonorAllocation) : Output → Int
  | .ephMemDonateCapacity d' _ (some n) => if d' = d then n else 0
  | _ => 0

def Output.returned (d : DonorAllocation) : Output → Int
  | .ephMemReturnCapacity d' n _ true => if d' = d then n else 0
  | _ => 0

/-- The bytes a log shows as granted by `d`. -/
def grantedBytes (d : DonorAllocation) (log : List Output) : Int :=
  Machine.weigh (Output.granted d) log

/-- The bytes a log shows as returned to `d`. -/
def returnedBytes (d : DonorAllocation) (log : List Output) : Int :=
  Machine.weigh (Output.returned d) log

/-- The number of entries in the books of `d`. -/
def Shared.entries (s : Shared) (d : DonorAllocation) : Nat :=
  match s.region? d with
  | none => 0
  | some r => r.allocations.size

def ledger (d : DonorAllocation) (s : Shared) : Int :=
  grantedBytes d s.log - returnedBytes d s.log - granularity * s.entries d

/-- How an operation changes the ledger. -/
def ledgerGain (d : DonorAllocation) (s : Shared) (op : Op) : Int :=
  ledger d (op.exec s) - ledger d s

/-- The operations that show in a ledger. -/
def Op.books : Op → Bool
  | .reserveFromRegion _ _ _ => true
  | .ephMemDonateCapacity _ _ _ => true
  | .handleReservedAlloc _ _ _ _ => true
  | .ephMemReturnCapacity _ _ _ _ => true
  | .bookkeep _ _ => true
  | _ => false

/-- The ledger changes by what was granted, what was returned and how the books
grew or shrank. -/
theorem ledger_eq {s s' : Shared} {d : DonorAllocation} {g r : Int}
    (hg : grantedBytes d s'.log = grantedBytes d s.log + g)
    (hr : returnedBytes d s'.log = returnedBytes d s.log + r) :
    ledger d s' - ledger d s =
      g - r - granularity * ((s'.entries d : Int) - s.entries d) := by
  unfold ledger
  rw [hg, hr, Int.mul_sub]
  omega

/-- A region that is still there counts its entries before and after. -/
theorem entries_eq_of_region {s s' : Shared} {d : DonorAllocation} {r r' : DonatableRegion}
    (hr : s.region? d = some r) (hr' : s'.region? d = some r') :
    s.entries d = r.allocations.size ∧ s'.entries d = r'.allocations.size := by
  simp [Shared.entries, hr, hr']

/-- The entries of `d` after an operation that is not about `d`. -/
theorem entries_exec_same {op : Op} {s : Shared} {d : DonorAllocation}
    (h1 : ∀ size ids, op ≠ .reserveFromRegion d size ids)
    (h2 : ∀ ids n m, op ≠ .handleReservedAlloc d ids n m) (h3 : ∀ x, op ≠ .bookkeep d x) :
    (op.exec s).entries d = s.entries d := by
  cases hr : s.region? d with
  | none => simp [Shared.entries, hr, region?_exec_none op hr]
  | some r =>
    obtain ⟨r', hr', hChange⟩ := regionChange_exec op hr
    obtain ⟨e1, e2⟩ := entries_eq_of_region hr hr'
    rw [e1, e2]
    cases hChange with
    | same _ _ _ _ => rfl
    | debt => rfl
    | reserved => exact absurd rfl (h1 _ _)
    | confirmed => exact absurd rfl (h2 _ _ _)
    | booked => exact absurd rfl (h3 _)

/-- Only a reply to `eph-mem-donate` records a grant. -/
theorem granted_outputs_zero {d : DonorAllocation} {op : Op} {s : Shared}
    (hOp : ∀ n g, op ≠ .ephMemDonateCapacity d n g) :
    grantedBytes d (op.outputs s) = 0 := by
  refine Machine.weigh_eq_zero fun o ho => ?_
  have hEmit := emits_of_mem ho
  cases hEmit with
  | @donated d' n g =>
    have hne : d' ≠ d := fun heq => hOp n g (by rw [heq])
    cases g <;> simp [Output.granted, hne]
  | _ => rfl

/-- Only `eph-mem-return` records a return. -/
theorem returned_outputs_zero {d : DonorAllocation} {op : Op} {s : Shared}
    (hOp : ∀ n l ok, op ≠ .ephMemReturnCapacity d n l ok) :
    returnedBytes d (op.outputs s) = 0 := by
  refine Machine.weigh_eq_zero fun o ho => ?_
  have hEmit := emits_of_mem ho
  cases hEmit with
  | @returned d' n l ok =>
    have hne : d' ≠ d := fun heq => hOp n l ok (by rw [heq])
    cases ok <;> simp [Output.returned, hne]
  | _ => rfl

/-- What has been granted grows by what the operation records. -/
theorem grantedBytes_exec (d : DonorAllocation) (op : Op) (s : Shared) :
    grantedBytes d (op.exec s).log = grantedBytes d s.log + grantedBytes d (op.outputs s) := by
  rw [log_exec, grantedBytes, Machine.weigh_append, ← grantedBytes, ← grantedBytes]
  exact Int.add_comm ..

/-- What has been returned grows by what the operation records. -/
theorem returnedBytes_exec (d : DonorAllocation) (op : Op) (s : Shared) :
    returnedBytes d (op.exec s).log =
      returnedBytes d s.log + returnedBytes d (op.outputs s) := by
  rw [log_exec, returnedBytes, Machine.weigh_append, ← returnedBytes, ← returnedBytes]
  exact Int.add_comm ..

/-- An operation that is not about the books of `d` leaves its ledger alone. -/
theorem ledgerGain_other {op : Op} {s : Shared} {d : DonorAllocation}
    (h1 : ∀ size ids, op ≠ .reserveFromRegion d size ids)
    (h2 : ∀ ids n m, op ≠ .handleReservedAlloc d ids n m) (h3 : ∀ x, op ≠ .bookkeep d x)
    (h4 : ∀ n g, op ≠ .ephMemDonateCapacity d n g)
    (h5 : ∀ n l ok, op ≠ .ephMemReturnCapacity d n l ok) : ledgerGain d s op = 0 := by
  unfold ledgerGain
  rw [ledger_eq (grantedBytes_exec d op s) (returnedBytes_exec d op s),
    granted_outputs_zero h4, returned_outputs_zero h5, entries_exec_same h1 h2 h3]
  simp

/-- Most operations do not show in a ledger. -/
theorem ledgerGain_plain {op : Op} {s : Shared} {d : DonorAllocation} (h : op.books = false) :
    ledgerGain d s op = 0 := by
  refine ledgerGain_other ?_ ?_ ?_ ?_ ?_
  all_goals
    intros
    rintro rfl
    cases h

/-- A grant adds its bytes to its donor's ledger, and nothing when it is refused. -/
theorem ledgerGain_donate (d d' : DonorAllocation) (s : Shared) (n : Nat) (g : Option Nat) :
    ledgerGain d s (.ephMemDonateCapacity d' n g) =
      if d' = d then ((g.getD 0 : Nat) : Int) else 0 := by
  have hEntries : ((Op.ephMemDonateCapacity d' n g).exec s).entries d = s.entries d :=
    entries_exec_same nofun nofun nofun
  have hReturned : returnedBytes d ((Op.ephMemDonateCapacity d' n g).outputs s) = 0 :=
    returned_outputs_zero nofun
  unfold ledgerGain
  rw [ledger_eq (grantedBytes_exec d _ s) (returnedBytes_exec d _ s), hReturned, hEntries]
  show Output.granted d (.ephMemDonateCapacity d' n g) + 0 - 0 - _ = _
  cases g with
  | none => simp [Output.granted]
  | some g => simp [Output.granted]

/-- A return that succeeds takes its bytes out of its donor's ledger; one that
fails takes nothing. -/
theorem ledgerGain_return (d d' : DonorAllocation) (s : Shared) (n : Nat) (l : List AllocId)
    (ok : Bool) :
    ledgerGain d s (.ephMemReturnCapacity d' n l ok) =
      if d' = d ∧ ok = true then - (n : Int) else 0 := by
  have hEntries : ((Op.ephMemReturnCapacity d' n l ok).exec s).entries d = s.entries d :=
    entries_exec_same nofun nofun nofun
  have hGranted : grantedBytes d ((Op.ephMemReturnCapacity d' n l ok).outputs s) = 0 :=
    granted_outputs_zero nofun
  unfold ledgerGain
  rw [ledger_eq (grantedBytes_exec d _ s) (returnedBytes_exec d _ s), hGranted, hEntries]
  show 0 - (Output.returned d (.ephMemReturnCapacity d' n l ok) + 0) - _ = _
  cases ok with
  | false => simp [Output.returned]
  | true =>
    simp only [Output.returned, and_true]
    split <;> simp

/-- A section of the region `d`, which writes nothing that counts. -/
theorem ledgerGain_section {op : Op} {s : Shared} {d : DonorAllocation}
    {r r' : DonatableRegion} (hr : s.region? d = some r) (hr' : (op.exec s).region? d = some r')
    (h4 : ∀ n g, op ≠ .ephMemDonateCapacity d n g)
    (h5 : ∀ n l ok, op ≠ .ephMemReturnCapacity d n l ok) :
    ledgerGain d s op =
      - (granularity * ((r'.allocations.size : Int) - r.allocations.size)) := by
  obtain ⟨e1, e2⟩ := entries_eq_of_region hr hr'
  unfold ledgerGain
  rw [ledger_eq (grantedBytes_exec d op s) (returnedBytes_exec d op s),
    granted_outputs_zero h4, returned_outputs_zero h5, e1, e2]
  omega

/-- An allocation is recorded where its region's books have it. -/
theorem contains_of_recorded {s : Shared} {d : DonorAllocation} {r : DonatableRegion}
    {x : AllocId} (hr : s.region? d = some r) :
    s.recorded d x = true ↔ ∃ y, r.allocations.get? x = some y := by
  simp only [Shared.recorded, hr]
  exact OrdMap.contains_iff

/-- Reserving from a region puts one granule an allocation in its books, ahead
of the grant. -/
theorem ledgerGain_reserve {s : Shared} {d d' : DonorAllocation} {size : Nat}
    {ids : List AllocId} {r : DonatableRegion} (hr : s.region? d' = some r) (hNodup : ids.Nodup)
    (hNew : ∀ x ∈ ids, s.recorded d' x = false) :
    ledgerGain d s (.reserveFromRegion d' size ids) =
      if d' = d then - ((granularity * ids.length : Nat) : Int) else 0 := by
  by_cases hd : d' = d
  · subst hd
    have hMap : (ids.map fun x => (x, x)).map Prod.fst = ids := by
      rw [List.map_map]
      exact List.map_id' ids
    have hSize : (r.reserve size ids).allocations.size = r.allocations.size + ids.length := by
      have h := OrdMap.size_insertAll (m := r.allocations) (l := ids.map fun x => (x, x))
        (by rw [hMap]; exact hNodup) ?_
      · rw [List.length_map] at h
        exact h
      · intro e he
        obtain ⟨x, hx, rfl⟩ := List.mem_map.mp he
        have hNot := hNew x hx
        rw [← Bool.not_eq_true, contains_of_recorded hr] at hNot
        exact Option.eq_none_iff_forall_ne_some.mpr fun y hy => hNot ⟨y, hy⟩
    obtain ⟨r', hr', hChange⟩ := regionChange_exec (.reserveFromRegion d' size ids) hr
    rw [ledgerGain_section hr hr' nofun nofun, if_pos rfl]
    cases hChange with
    | reserved =>
      rw [hSize]
      push_cast
      ring
    | same h1 _ _ _ => exact absurd rfl (h1 size ids)
  · rw [if_neg hd]
    refine ledgerGain_other ?_ nofun nofun nofun nofun
    rintro size' ids' heq
    cases heq
    exact hd rfl

/-- A confirmation strikes the slice it does not keep. -/
theorem ledgerGain_confirm {s : Shared} {d d' : DonorAllocation} {n m k : Nat}
    {ids : List AllocId} {r : DonatableRegion} (hr : s.region? d' = some r)
    (hk : r.finalSize n m / granularity = k) (hNodup : (ids.drop k).Nodup)
    (hIn : ∀ x ∈ ids.drop k, s.recorded d' x = true) :
    ledgerGain d s (.handleReservedAlloc d' ids n m) =
      if d' = d then ((granularity * (ids.drop k).length : Nat) : Int) else 0 := by
  by_cases hd : d' = d
  · subst hd
    have hSize : (r.handleReservedAlloc ids n m).1.allocations.size + (ids.drop k).length =
        r.allocations.size := by
      simp only [DonatableRegion.handleReservedAlloc, hk]
      refine OrdMap.size_eraseAll hNodup fun x hx => ?_
      exact (contains_of_recorded hr).mp (hIn x hx)
    obtain ⟨r', hr', hChange⟩ := regionChange_exec (.handleReservedAlloc d' ids n m) hr
    rw [ledgerGain_section hr hr' (by simp) (by simp), if_pos rfl]
    cases hChange with
    | confirmed =>
      rw [← hSize]
      push_cast
      ring
    | same _ h2 _ _ => exact absurd rfl (h2 ids n m)
  · rw [if_neg hd]
    refine ledgerGain_other (by simp) ?_ (by simp) (by simp) (by simp)
    rintro ids' n' m' heq
    cases heq
    exact hd rfl

/-- Where there is no region, a confirmation strikes nothing. -/
theorem ledgerGain_confirm_none {s : Shared} {d d' : DonorAllocation} {n m : Nat}
    {ids : List AllocId} (hr : s.region? d' = none) :
    ledgerGain d s (.handleReservedAlloc d' ids n m) = 0 := by
  unfold ledgerGain
  simp only [Op.exec, hr]
  omega

/-- Bookkeeping an allocation strikes it. -/
theorem ledgerGain_book {s : Shared} {d d' : DonorAllocation} {x : AllocId}
    (hIn : s.recorded d' x = true) :
    ledgerGain d s (.bookkeep d' x) = if d' = d then (granularity : Int) else 0 := by
  by_cases hd : d' = d
  · subst hd
    cases hr : s.region? d' with
    | none => simp [Shared.recorded, hr] at hIn
    | some r =>
      obtain ⟨y, hy⟩ := (contains_of_recorded hr).mp hIn
      have hErase := OrdMap.size_erase_of_some hy
      have hSize : (r.bookkeep x).allocations.size + 1 = r.allocations.size := by
        simp only [DonatableRegion.bookkeep, hy]
        exact hErase
      obtain ⟨r', hr', hChange⟩ := regionChange_exec (.bookkeep d' x) hr
      rw [ledgerGain_section hr hr' (by simp) (by simp), if_pos rfl]
      cases hChange with
      | booked =>
        rw [← hSize]
        push_cast
        ring
      | same _ _ h3 _ => exact absurd rfl (h3 x)
  · rw [if_neg hd]
    refine ledgerGain_other (by simp) (by simp) ?_ (by simp) (by simp)
    rintro x' heq
    cases heq
    exact hd rfl

-- ---------------------------------------------------------------------------
-- What the calls owe
-- ---------------------------------------------------------------------------

def GiveBack.owes (d : DonorAllocation) (g : GiveBack) : Int :=
  if g.donor = d then
    match g.pc with
    | .book todo => - (granularity * todo.length : Nat)
    | _ => 0
  else 0

def ReturnCall.owes (d : DonorAllocation) (r : ReturnCall) : Int :=
  match r.pc with
  | .giveBack calls => Machine.weigh (GiveBack.owes d) calls
  | _ => 0

/-- A grant is ahead of the donor while it has the allocations in the books
before the grant comes, and behind while it holds what it will hand back. -/
def AllocCall.owes (d : DonorAllocation) (a : AllocCall) : Int :=
  match a.pc with
  | .donate d' n => if d' = d then - (n : Int) else 0
  | .confirm d' n g => if d' = d then ((g.getD 0 : Nat) : Int) - n else 0
  | .handBack d' _ n => if d' = d then (n : Int) else 0
  | .giveBack g => g.owes d
  | _ => 0

/-- Once the granules are sent, a give-back has them left to strike from the books. -/
theorem GiveBack.Step.owes_eq {s : Shared} {g g' : GiveBack} {op : Op}
    (h : GiveBack.Step s g op g') (d : DonorAllocation)
    (hIn : ∀ x, g.tokens g.donor x ≤ ind (s.recorded g.donor x = true)) :
    g'.owes d = g.owes d + ledgerGain d s op := by
  cases h with
  | @sent d' ids =>
    rw [ledgerGain_return]
    by_cases hd : d' = d
    · simp [GiveBack.owes, hd, Nat.mul_comm granularity]
    · simp [GiveBack.owes, hd]
  | @failed d' ids =>
    rw [ledgerGain_return]
    simp [GiveBack.owes]
  | @book d' ids todo x _ =>
    have hRec : s.recorded d' x = true := by
      have hx := hIn x
      have hPos := cnt_nonneg x todo
      by_contra hNot
      rw [ind_false hNot] at hx
      simp only [GiveBack.tokens, if_true, cnt_cons, ind_true] at hx
      omega
    rw [ledgerGain_book hRec]
    by_cases hd : d' = d
    · simp only [GiveBack.owes, hd, if_true, List.length_cons, Nat.mul_add, Nat.mul_one]
      push_cast
      omega
    · simp [GiveBack.owes, hd]
  | @booked d' ids =>
    rw [ledgerGain_plain rfl]
    simp [GiveBack.owes]

/-- A return owes what its give-backs have left to strike. -/
theorem ReturnCall.Step.owes_eq {tid : Tid} {s : Shared} {r r' : ReturnCall} {op : Op}
    (h : ReturnCall.Step tid s r op r') (d : DonorAllocation)
    (hIn : ∀ d' x, r.tokens d' x ≤ ind (s.recorded d' x = true)) :
    r'.owes d = r.owes d + ledgerGain d s op := by
  cases h with
  | release _ hr =>
    have hZero : ledgerGain d s op = 0 := by cases hr <;> exact ledgerGain_plain rfl
    rw [hZero, Int.add_zero]
    rfl
  | @released allocs calls dons _ =>
    have hZero : Machine.weigh (GiveBack.owes d) (dons.map fun g => ⟨g.1, g.2, .send⟩) = 0 := by
      refine Machine.weigh_eq_zero fun g hg => ?_
      obtain ⟨e, -, rfl⟩ := List.mem_map.mp hg
      simp [GiveBack.owes]
    rw [ledgerGain_plain rfl, Int.add_zero]
    exact hZero
  | @giveBack allocs calls i g g' op hg hStep =>
    have hOne : ∀ x, g.tokens g.donor x ≤ ind (s.recorded g.donor x = true) := fun x =>
      le_trans (Machine.le_weigh (GiveBack.tokens_nonneg g.donor x) hg) (hIn g.donor x)
    have hEq := hStep.owes_eq d hOne
    simp only [ReturnCall.owes, Machine.weigh_set _ hg]
    omega
  | @returned allocs calls hDone =>
    have hZero : Machine.weigh (GiveBack.owes d) calls = 0 := by
      refine Machine.weigh_eq_zero fun g hg => ?_
      simp [GiveBack.owes, hDone g hg]
    rw [ledgerGain_plain rfl, Int.add_zero]
    exact hZero.symm
  | notTaken _ =>
    rw [ledgerGain_plain rfl, Int.add_zero]
    rfl
  | taken _ =>
    rw [ledgerGain_plain rfl, Int.add_zero]
    rfl
  | _ =>
    rw [ledgerGain_plain rfl, Int.add_zero]
    rfl

/-- A confirmation settles all of a grant that is not larger than the request:
what is kept, what settles the debt and what is left over. -/
theorem finalSize_settles (r : DonatableRegion) {granted requested : Nat}
    (h : granted ≤ requested) :
    r.finalSize requested granted + (r.toRevoke requested granted +
      DonatableRegion.excess requested granted) = granted := by
  have hMin : min granted requested = granted := min_eq_left h
  have hLe : r.toRevoke requested granted ≤ DonatableRegion.usableGrant requested granted := by
    unfold DonatableRegion.toRevoke
    split
    · exact min_le_right _ _
    · exact Nat.zero_le _
  have hMod := Nat.mod_le granted granularity
  have hFinal : r.finalSize requested granted =
      DonatableRegion.usableGrant requested granted - r.toRevoke requested granted := rfl
  have hUse : DonatableRegion.usableGrant requested granted = granted - granted % granularity := by
    simp [DonatableRegion.usableGrant, hMin]
  have hExcess : DonatableRegion.excess requested granted = granted % granularity := by
    simp [DonatableRegion.excess, hMin]
  omega

-- ---------------------------------------------------------------------------
-- A grant in progress
-- ---------------------------------------------------------------------------

/-- The grants are at most what was asked for, and every return succeeds. -/
def LedgerRun (_ : System) : Op → Prop
  | .ephMemDonateCapacity _ size granted => granted.getD 0 ≤ size
  | .ephMemReturnCapacity _ _ _ ok => ok = true
  | _ => True

/-- The donor granted at most what it was asked for. -/
def Task.Bounded : Task → Prop
  | .request ⟨_, .allocate ⟨_, _, _, .confirm _ size granted⟩ _⟩ => granted.getD 0 ≤ size
  | _ => True

theorem nodup_of_cnt_le_one {l : List AllocId} (h : ∀ x, cnt x l ≤ 1) : l.Nodup := by
  rw [List.nodup_iff_count_le_one]
  intro x
  have hx := h x
  unfold cnt at hx
  omega

/-- What a thread will strike is in the books. -/
theorem recorded_of_cnt_le {s : Shared} {d : DonorAllocation} {l : List AllocId}
    (h : ∀ x, cnt x l ≤ ind (s.recorded d x = true)) {x : AllocId} (hx : x ∈ l) :
    s.recorded d x = true := by
  have hPos := one_le_cnt_iff.mpr hx
  have hLe := h x
  by_contra hNot
  rw [ind_false hNot] at hLe
  omega

/-- A confirmation strikes what it does not keep. -/
theorem ledgerGain_struck {s : Shared} {d d' : DonorAllocation} {rest : List AllocId}
    {size granted : Nat} {r : DonatableRegion} (hr : s.region? d' = some r)
    (hLen : size / granularity ≤ rest.length) (hWhole : granularity ∣ size)
    (hOwed : granularity ∣ r.revokedOwed)
    (hIn : ∀ x, cnt x (rest.take (size / granularity)) ≤ ind (s.recorded d' x = true)) :
    ledgerGain d s (.handleReservedAlloc d' (rest.take (size / granularity)) size granted) =
      if d' = d then (size : Int) - r.finalSize size granted else 0 := by
  have hNodup := nodup_of_cnt_le_one fun x => le_trans (hIn x) (ind_le_one _)
  rw [ledgerGain_confirm hr rfl (hNodup.sublist (List.drop_sublist _ _))
    (fun x hx => recorded_of_cnt_le hIn (List.mem_of_mem_drop hx))]
  have hFinal := finalSize_le r size granted
  have hCount : granularity * ((rest.take (size / granularity)).drop
      (r.finalSize size granted / granularity)).length = size - r.finalSize size granted := by
    rw [List.length_drop, List.length_take_of_le hLen, Nat.mul_sub,
      Nat.mul_div_cancel' hWhole, Nat.mul_div_cancel' (dvd_finalSize hOwed size granted)]
  rw [hCount]
  split
  · omega
  · rfl

/-- A grant that waits on a region that does not exist asked for nothing. -/
theorem size_eq_zero_of_no_region {s : Shared} {d : DonorAllocation} {rest : List AllocId}
    {size : Nat} (hr : s.region? d = none) (hLen : size / granularity ≤ rest.length)
    (hWhole : granularity ∣ size)
    (hIn : ∀ x, cnt x (rest.take (size / granularity)) ≤ ind (s.recorded d x = true)) :
    size = 0 := by
  have hNone : rest.take (size / granularity) = [] := by
    refine List.eq_nil_iff_forall_not_mem.mpr fun x hx => ?_
    have hRec := recorded_of_cnt_le hIn hx
    simp [Shared.recorded, hr] at hRec
  have hZero : size / granularity = 0 := by
    rw [← List.length_take_of_le hLen, hNone, List.length_nil]
  rw [← Nat.mul_div_cancel' hWhole, hZero, Nat.mul_zero]

/-- What a grant owes the ledger changes as the ledger does: each step moves
bytes between the two. -/
theorem AllocCall.Step.owes_eq {s : Shared} {a a' : AllocCall} {op : Op} {v : VmId}
    {l : List AllocId} (h : AllocCall.Step s a op a') (d : DonorAllocation)
    (hRange : a.InRange) (hWhole : (Task.request ⟨v, .allocate a l⟩).Whole)
    (hBound : (Task.request ⟨v, .allocate a l⟩).Bounded) (hOwed : OwedWhole s)
    (hIn : ∀ d x, a.tokens d x ≤ ind (s.recorded d x = true))
    (hNew : ∀ d x, ind (s.recorded d x = true) + a.fresh d x ≤ 1)
    (hOk : ∀ d' n l ok, op = .ephMemReturnCapacity d' n l ok → ok = true) :
    a'.owes d = a.owes d + ledgerGain d s op := by
  cases h with
  | @reserve backed rest last v vms r size _ hr _ hSize hLe =>
    have hCnt : ∀ x, ind (s.recorded ⟨v, r.path⟩ x = true) +
        cnt x (rest.take (size / granularity)) ≤ 1 := by
      intro x
      have hx := hNew ⟨v, r.path⟩ x
      have hSplit := cnt_take_add_drop x (size / granularity) rest
      have hRest := cnt_nonneg x (rest.drop (size / granularity))
      simp only [AllocCall.fresh] at hx
      omega
    have hNodup : (rest.take (size / granularity)).Nodup := by
      refine nodup_of_cnt_le_one fun x => ?_
      have hx := hCnt x
      have := ind_nonneg (s.recorded ⟨v, r.path⟩ x = true)
      omega
    have hFree : ∀ x ∈ rest.take (size / granularity), s.recorded ⟨v, r.path⟩ x = false := by
      intro x hx
      have hPos := one_le_cnt_iff.mpr hx
      have hLe := hCnt x
      by_contra hRec
      rw [Bool.not_eq_false] at hRec
      rw [ind_true hRec] at hLe
      omega
    have hDvd : granularity ∣ size := hSize ▸ dvd_sizeToAllocate r _
    rw [ledgerGain_reserve hr hNodup hFree, List.length_take_of_le hLe, Nat.mul_div_cancel' hDvd]
    simp only [AllocCall.owes]
    split <;> simp
  | @donate backed rest last d' size granted =>
    rw [ledgerGain_donate]
    simp only [AllocCall.owes]
    split <;> omega
  | @refused backed rest last d' size _ =>
    simp only [AllocCall.tokens] at hIn
    have hIds : ∀ x, cnt x (rest.take (size / granularity)) ≤
        ind (s.recorded d' x = true) := fun x => by simpa using hIn d' x
    cases hr : s.region? d' with
    | some r =>
      have hZero : r.finalSize size 0 = 0 := by
        simp [DonatableRegion.finalSize, DonatableRegion.usableGrant]
      rw [ledgerGain_struck hr hRange hWhole (hOwed d' r hr) hIds, hZero]
      simp only [AllocCall.owes, Option.getD_none]
      split <;> simp
    | none =>
      have hSize := size_eq_zero_of_no_region hr hRange hWhole hIds
      rw [ledgerGain_confirm_none hr]
      simp [AllocCall.owes, hSize]
  | @regionGone backed rest last d' size granted hr =>
    simp only [AllocCall.tokens] at hIn
    have hIds : ∀ x, cnt x (rest.take (size / granularity)) ≤
        ind (s.recorded d' x = true) := fun x => by simpa using hIn d' x
    have hSize := size_eq_zero_of_no_region hr hRange hWhole hIds
    have hGranted : granted ≤ size := hBound
    have hZero : granted = 0 := by omega
    rw [ledgerGain_confirm_none hr]
    simp [AllocCall.owes, hSize, hZero]
  | @owing backed rest last d' size granted r _ hr hLe =>
    simp only [AllocCall.tokens] at hIn
    have hIds : ∀ x, cnt x (rest.take (size / granularity)) ≤
        ind (s.recorded d' x = true) := fun x => by simpa using hIn d' x
    have hSettle := finalSize_settles r hBound
    simp only [Option.getD_some] at hSettle
    rw [ledgerGain_struck hr hRange hWhole (hOwed d' r hr) hIds]
    simp only [AllocCall.owes, Option.getD_some]
    split <;> omega
  | @confirmed backed rest last d' size granted r _ hr hLe hZero =>
    simp only [AllocCall.tokens] at hIn
    have hIds : ∀ x, cnt x (rest.take (size / granularity)) ≤
        ind (s.recorded d' x = true) := fun x => by simpa using hIn d' x
    have hSettle := finalSize_settles r hBound
    simp only [Option.getD_some] at hSettle
    rw [ledgerGain_struck hr hRange hWhole (hOwed d' r hr) hIds]
    simp only [AllocCall.owes, Option.getD_some]
    split <;> omega
  | @confirmOut backed rest last d' size granted r hLt =>
    have hNot := (AllocCall.InRange.step hRange (.confirmOut (s := s) hLt)).2
    exact absurd rfl hNot
  | @handBack backed rest last d' n toRevoke ok =>
    have hTrue := hOk _ _ _ _ rfl
    subst hTrue
    rw [ledgerGain_return]
    simp only [AllocCall.owes, and_true]
    split <;> omega
  | @giveBack backed rest last g g' op hg =>
    exact hg.owes_eq d fun x => hIn g.donor x
  | @gaveBack backed rest last g hDone =>
    rw [ledgerGain_plain rfl, Int.add_zero]
    simp [AllocCall.owes, GiveBack.owes, hDone]
  | @someAbandoned backed rest abandoned last d' =>
    rw [ledgerGain_plain rfl, Int.add_zero]
    simp [AllocCall.owes, GiveBack.owes]
  | _ =>
    rw [ledgerGain_plain rfl, Int.add_zero]
    rfl

-- ---------------------------------------------------------------------------
-- Every run
-- ---------------------------------------------------------------------------

/-- The weights that balance `k` times the ledger of `d`. -/
def ledgerWeights (k : Int) (d : DonorAllocation) : Weights where
  rsvd _ := 0
  alloc call := - (k * call.owes d)
  release _ := 0
  ret call := - (k * call.owes d)
  claimed _ := 0

structure LedgerInv (s : System) : Prop where
  core : CoreInv s
  whole : WholeInv s
  bounded : ∀ (i : Nat) (t : Task), s.tasks[i]? = some t → t.Bounded
  balance : ∀ k d, Machine.total (fun s => k * ledger d s) (ledgerWeights k d).task s ≤ 0

theorem ledgerGain_plainOp {op : Op} (hOp : op.plain = true) (d : DonorAllocation) (s : Shared) :
    ledgerGain d s op = 0 := by
  refine ledgerGain_plain ?_
  cases op <;> first | rfl | cases hOp

/-- A return that has ended owes nothing. -/
theorem ReturnCall.owes_done {r : ReturnCall} (h : r.pc = .done) (d : DonorAllocation) :
    r.owes d = 0 := by
  simp [ReturnCall.owes, h]

/-- A grant that has ended owes nothing. -/
theorem AllocCall.owes_done {a : AllocCall} (h : a.pc = .done) (d : DonorAllocation) :
    a.owes d = 0 := by
  simp [AllocCall.owes, h]

/-- No thread will strike more than the books have. -/
theorem bookWeights_le {s : System} (h : CoreInv s) {i : Nat} {t : Task}
    (ht : s.tasks[i]? = some t) (d : DonorAllocation) (x : AllocId) :
    (bookWeights d x).task t ≤ ind (s.shared.recorded d x = true) := by
  have hHeld := h.tokens.book.held ht d x
  have hPos := ind_nonneg ((s.shared.alloc x).parkedAt d = true)
  omega

/-- What a thread that is in a return will strike, the return will. -/
theorem bookWeights_returns {t : Task} {r : ReturnCall} (h : t.returns = some r)
    (d : DonorAllocation) (x : AllocId) : (bookWeights d x).task t = r.tokens d x := by
  unfold Task.returns at h
  split at h <;> cases h <;> rfl

/-- What an operation adds to `k` times the ledger of `d`. A return that fails
adds nothing, and leaves a grant in progress with what it owes. -/
def ledgerPay (k : Int) (d : DonorAllocation) (s : Shared) : Op → Int
  | .ephMemReturnCapacity _ n _ false => - (k.natAbs * n : Nat)
  | op => k * ledgerGain d s op

theorem ledgerPay_zero {op : Op} {k : Int} {d : DonorAllocation} {s : Shared}
    (h : ledgerGain d s op = 0) : ledgerPay k d s op ≤ 0 := by
  unfold ledgerPay
  split
  · omega
  · rw [h, Int.mul_zero]

/-- Apart from a return that fails, an operation is paid for in full. -/
theorem ledgerPay_of_ok {op : Op} (h : ∀ d n l ok, op = .ephMemReturnCapacity d n l ok → ok = true)
    (k : Int) (d : DonorAllocation) (s : Shared) : ledgerPay k d s op = k * ledgerGain d s op := by
  unfold ledgerPay
  split
  · exact absurd (h _ _ _ _ rfl) (by simp)
  · rfl

/-- A grant pays for what its step does to the ledger. -/
theorem AllocCall.Step.pays {s : System} (h : LedgerInv s) {i : Nat} {v : VmId}
    {call call' : AllocCall} {l : List AllocId} {op : Op}
    (ht : s.tasks[i]? = some (Task.request ⟨v, .allocate call l⟩))
    (hStep : AllocCall.Step s.shared call op call') (k : Int) (d : DonorAllocation) :
    - (k * call'.owes d) + ledgerPay k d s.shared op ≤ - (k * call.owes d) := by
  by_cases hOk : ∀ d n l ok, op = .ephMemReturnCapacity d n l ok → ok = true
  · have hEq := hStep.owes_eq d (h.core.accounting.inRange i _ ht) (h.whole.tasks i _ ht)
      (h.bounded i _ ht) h.whole.owed (fun d x => bookWeights_le h.core ht d x)
      (fun d x => le_trans (h.core.tokens.fresh.offered ht d x) (ind_le_one _)) hOk
    rw [ledgerPay_of_ok hOk, hEq, Int.mul_add]
    omega
  · -- a failed return settles nothing
    push Not at hOk
    obtain ⟨d', n, ids, ok, rfl, hFalse⟩ := hOk
    have hFalse := Bool.eq_false_of_not_eq_true hFalse
    subst hFalse
    cases hStep with
    | @handBack backed rest last _ n' _ _ =>
      have hAbs : k * (n : Int) ≤ (k.natAbs * n : Nat) := by
        rw [Int.natCast_mul]
        exact Int.mul_le_mul_of_nonneg_right Int.le_natAbs (Int.natCast_nonneg n)
      have hNonneg : (0 : Int) ≤ (k.natAbs * n : Nat) := Int.natCast_nonneg _
      simp only [AllocCall.owes, ledgerPay, Int.mul_zero]
      split
      · omega
      · omega
    | giveBack hg =>
      cases hg with
      | @failed d' ids =>
      have hNonneg := Int.natCast_nonneg (k.natAbs * (ids.length * granularity))
      simp only [AllocCall.owes, GiveBack.owes, ledgerPay]
      split <;> omega

/-- A return pays for what its step does to the ledger. -/
theorem ReturnCall.Step.pays {s : System} (h : CoreInv s) {i : Nat} {t : Task}
    {r r' : ReturnCall} {op : Op} (ht : s.tasks[i]? = some t) (hr : t.returns = some r)
    (hStep : ReturnCall.Step i s.shared r op r') (k : Int) (d : DonorAllocation) :
    - (k * r'.owes d) + ledgerPay k d s.shared op ≤ - (k * r.owes d) := by
  have hEq := hStep.owes_eq d fun d' x => by
    rw [← bookWeights_returns hr]
    exact bookWeights_le h ht d' x
  have hPay : ledgerPay k d s.shared op ≤ k * ledgerGain d s.shared op := by
    unfold ledgerPay
    split
    · rw [ledgerGain_return, if_neg (by simp), Int.mul_zero]
      exact Int.neg_nonpos_of_nonneg (Int.natCast_nonneg _)
    · exact Int.le_refl _
  rw [hEq, Int.mul_add]
  omega

/-- Every thread pays for its operations, whichever sign `k` has. -/
theorem ledgerWeights_pays {s : System} (h : LedgerInv s) (k : Int) (d : DonorAllocation) :
    (ledgerWeights k d).Pays (ledgerPay k d s.shared) s where
  plain op hOp := ledgerPay_zero (ledgerGain_plainOp hOp d s.shared)
  rsvd_nil := rfl
  reserve v n l := by
    show 0 + ledgerPay k d s.shared _ ≤ 0
    rw [Int.zero_add]
    exact ledgerPay_zero (ledgerGain_plain rfl)
  reserved l := by
    show - (k * 0) ≤ 0
    omega
  alloc i v call call' l op ht hStep := hStep.pays h ht k d
  allocated v call hDone := by
    show 0 ≤ - (k * call.owes d)
    rw [AllocCall.owes_done hDone]
    omega
  release tid r r' op hStep := by
    have hZero : ledgerGain d s.shared op = 0 := by cases hStep <;> exact ledgerGain_plain rfl
    show 0 + ledgerPay k d s.shared op ≤ 0
    rw [Int.zero_add]
    exact ledgerPay_zero hZero
  released _ _ := Int.le_refl 0
  start l := by
    show - (k * 0) ≤ 0
    omega
  ret i t r r' op ht hr hStep := hStep.pays h.core ht hr k d
  returned r hDone := by
    show 0 ≤ - (k * r.owes d)
    rw [ReturnCall.owes_done hDone]
    omega
  claimed_nil := Int.le_refl 0
  claim d' x l _ := by
    show 0 + ledgerPay k d s.shared _ ≤ 0
    rw [Int.zero_add]
    exact ledgerPay_zero (ledgerGain_plain rfl)
  pass d' x _ := ledgerPay_zero (ledgerGain_plain rfl)
  giveBack l := by
    show - (k * 0) ≤ 0
    omega

/-- A grant that is waiting to be confirmed is at most what was asked for, as
the run assumes. -/
theorem Task.Step.bounded {tid : Tid} {s : System} {t t' : Task} {op : Op} {started : List Task}
    (h : Task.Step tid s.shared t op t' started) (hAllow : LedgerRun s op) :
    t'.Bounded ∧ ∀ u ∈ started, u.Bounded := by
  cases h with
  | events hl =>
    refine ⟨trivial, fun u hu => ?_⟩
    obtain ⟨v, -, rfl⟩ := List.mem_map.mp hu
    trivial
  | detection _ => exact ⟨trivial, nofun⟩
  | revoke _ => exact ⟨trivial, nofun⟩
  | request hq =>
    refine ⟨?_, nofun⟩
    cases hq with
    | allocate hc =>
      cases hc with
      | donate => exact hAllow
      | _ => trivial
    | allLive =>
      unfold Request.afterDead
      split <;> trivial
    | returnedDead _ =>
      unfold Request.afterDead
      split <;> trivial
    | _ => trivial

/-- What an operation adds to the ledger, the thread that performs it stops owing. -/
theorem LedgerInv.move {s s' : System} {op : Op} (h : LedgerInv s)
    (hm : orchestrator.Move s op s') (hAllow : LedgerRun s op) : LedgerInv s' where
  core := h.core.move hm
  whole := h.whole.move hm
  bounded := by
    refine forall_tasks (J := fun _ _ t => t.Bounded) hm h.bounded (fun i t t' started ht hs => ?_)
      (fun started hs j u hu => ?_) (fun _ _ _ hu => hu)
    · have hStep := hs.bounded hAllow
      exact ⟨hStep.1, fun _ => hStep.2⟩
    · cases hs with
      | request => rw [List.mem_singleton.mp hu]; trivial
      | _ => cases hu
  balance k d := by
    refine le_trans (Weights.total_le hm ?_ (ledgerWeights_pays h k d)) (h.balance k d)
    have hOk : ∀ d n l ok, op = .ephMemReturnCapacity d n l ok → ok = true := by
      rintro d n l ok rfl
      exact hAllow
    show k * ledger d (op.exec s.shared) ≤ k * ledger d s.shared + _
    rw [ledgerPay_of_ok hOk, ledgerGain, Int.mul_sub]
    omega

theorem ledgerInv_init {vm : VmId → Vm} {donor : VmId → DonorState} (hFresh : FreshDonors donor) :
    LedgerInv (initSystem vm donor) where
  core := coreInv_init hFresh
  whole := wholeInv_init hFresh
  bounded := by
    intro i t ht
    have hMem := List.mem_of_getElem? ht
    simp only [initSystem, List.mem_cons, List.not_mem_nil, or_false] at hMem
    rcases hMem with rfl | rfl <;> trivial
  balance := by
    intro k d
    have hEntries : (initShared vm donor).entries d = 0 := by
      unfold Shared.entries
      split
      · rfl
      · rename_i r hr
        rw [hFresh d.donorVm r (region?_mem hr)]
        rfl
    have hZero : ledger d (initShared vm donor) = 0 := by
      show (0 : Int) - 0 - granularity * ((initShared vm donor).entries d : Nat) = 0
      rw [hEntries]
      simp
    show k * ledger d (initShared vm donor) + 0 ≤ 0
    rw [hZero]
    omega

/-- The thread is inside `allocate_eph_memory`, `revoke_eph_memory` or
`return_eph_memory_from_consumer`. -/
def Task.calling : Task → Bool
  | .request ⟨_, .allocate _ _⟩ => true
  | .revoke ⟨_, .select _ _ _⟩ => true
  | t => t.returns.isSome

/-- A thread outside the three calls owes the ledger nothing. -/
theorem ledgerWeights_of_not_calling {t : Task} (h : t.calling = false) (k : Int)
    (d : DonorAllocation) : (ledgerWeights k d).task t = 0 := by
  cases t with
  | events l => rfl
  | detection l => cases l <;> first | rfl | cases h
  | request q =>
    obtain ⟨c, pc⟩ := q
    cases pc <;> first | rfl | cases h
  | revoke v =>
    obtain ⟨d, pc⟩ := v
    cases pc <;> first | rfl | cases h

/-- **The donor's ledger.** In every run in which grants are at most what was
asked for and every return succeeds, in every state in which no grant, revoke
or return is in progress, what a region's donor granted less what was returned
to it is what the region has in its books. -/
theorem donor_ledger {s : System} (h : ReachableBy LedgerRun s)
    (hIdle : ∀ t ∈ s.tasks, t.calling = false) (d : DonorAllocation) (r : DonatableRegion)
    (hr : s.shared.region? d = some r) :
    grantedBytes d s.shared.log - returnedBytes d s.shared.log =
      ((granularity * r.allocations.size : Nat) : Int) := by
  obtain ⟨vm, donor, hFresh, hRun⟩ := h
  have hInv := hRun.invariant (fun _ _ _ hInv hm ha => LedgerInv.move hInv hm ha)
    (ledgerInv_init hFresh)
  have hWeigh : ∀ k, Machine.weigh (ledgerWeights k d).task s.tasks = 0 := fun k =>
    Machine.weigh_eq_zero fun t ht => ledgerWeights_of_not_calling (hIdle t ht) k d
  have hUp := hInv.balance 1 d
  have hDown := hInv.balance (-1) d
  simp only [Machine.total, hWeigh, Int.add_zero, Int.one_mul, Int.neg_one_mul] at hUp hDown
  have hEntries : s.shared.entries d = r.allocations.size := by
    simp [Shared.entries, hr]
  unfold ledger at hUp hDown
  rw [hEntries] at hUp hDown
  push_cast
  omega

instance (s : System) (op : Op) : Decidable (LedgerRun s op) := by
  unfold LedgerRun
  split <;> infer_instance

/-- After `demoCommit` the grant is over: the request leaves
`allocate_eph_memory`. -/
def demoGranted : List (Label Op Choice) :=
  demoCommit ++ [.task 2 .go, .task 2 .go, .task 2 .go]

theorem demoGranted_runs : (orchestrator.runIf (fun s op => decide (LedgerRun s op)) demo
    demoGranted).isSome = true := by decide +kernel

theorem donor_ledger_granted :
    ∃ r, (demoAfter demoGranted).shared.region? ⟨0, 7⟩ = some r ∧ r.allocations.size = 1 ∧
      grantedBytes ⟨0, 7⟩ (demoAfter demoGranted).shared.log -
        returnedBytes ⟨0, 7⟩ (demoAfter demoGranted).shared.log =
          ((granularity * r.allocations.size : Nat) : Int) := by
  have hSize : ((demoAfter demoGranted).shared.region? ⟨0, 7⟩).map
      (fun r => r.allocations.size) = some 1 := by decide +kernel
  have hIdle : ∀ t ∈ (demoAfter demoGranted).tasks, t.calling = false := by decide +kernel
  obtain ⟨r, hr, hOne⟩ := Option.map_eq_some_iff.mp hSize
  exact ⟨r, hr, hOne, donor_ledger (demo_reachableBy demoGranted_runs) hIdle ⟨0, 7⟩ r hr⟩

end EphMemory.Orchestrator
