import EphMemory.Lib.Alone
import EphMemory.Orchestrator.Debt

/-!
# Orchestrator — what `allocate_eph_memory` backs

A call of `allocate_eph_memory` from any state of the donors' books, with any
answers of the donors, while consumers abandon allocations. What it has backed
at any time is a prefix of the list it was given.

* `ByReturn` — the operations of a consumer that gives allocations up;
* `Steady` — what they, and most steps of the call, leave alone;
* `InFlight`, `BackedBy` — where an allocation of the call is recorded, before
  and after it is committed;
* `GrantInv` — where all of them are, `GrantInv.step` at every step;
* `GrantInv.no_panic` — no donor is set, and nothing committed, twice.
-/

namespace EphMemory.Orchestrator

open EphMemory.Lib

-- ---------------------------------------------------------------------------
-- The call and its environment
-- ---------------------------------------------------------------------------

/-- A step of the call, at whatever choice of the environment. -/
def AllocCall.Moves (s : Shared) (a : AllocCall) (op : Op) (a' : AllocCall) : Prop :=
  ∃ ch, a.next s ch = some (op, a')

/-- What `return_eph_memory_from_consumer` does on behalf of a consumer: it
strikes an allocation from the books only after it has abandoned it. -/
def ByReturn (s : Shared) (_ : AllocCall) : Op → Prop
  | .nop => True
  | .abandon _ => True
  | .lockConsumer _ _ => True
  | .unlockConsumer _ => True
  | .claimRelease _ _ _ _ => True
  | .cxlReleaseDynamicCapacity _ _ _ _ => True
  | .releaseTimedOut _ _ => True
  | .removeAreas _ _ _ => True
  | .ephMemReturnCapacity _ _ _ _ => True
  | .bookkeep _ x => (s.alloc x).state = .abandoned
  | _ => False

/-- The runs of a call on `rsvd`. -/
def AllocRuns (s : Shared) (rsvd : List AllocId) : Nat → Shared × AllocCall → Prop :=
  Runs Op.exec AllocCall.Moves ByReturn (s, .start rsvd)

/-- The donor an entry of the log says was asked. -/
def Output.asked? : Output → Option VmId
  | .ephMemDonateCapacity d _ _ => some d.donorVm
  | _ => none

def Output.panic? : Output → Option Panic
  | .panicked p => some p
  | _ => none

/-- The donors asked for memory so far, the last one first. -/
def Shared.asked (s : Shared) : List VmId := s.log.filterMap Output.asked?

def Shared.panics (s : Shared) : List Panic := s.log.filterMap Output.panic?

/-- No region has the allocation in its books. -/
def Shared.Nowhere (s : Shared) (x : AllocId) : Prop := ∀ d, s.recorded d x = false

/-- No region but `d` has. -/
def Shared.OnlyAt (s : Shared) (d : DonorAllocation) (x : AllocId) : Prop :=
  ∀ d', s.recorded d' x = true → d' = d

/-- The allocation waits to be backed, unless it was abandoned. -/
def Shared.Waiting (s : Shared) (x : AllocId) : Prop :=
  (s.alloc x).state = .pendingCommit ∨ (s.alloc x).state = .abandoned

-- ---------------------------------------------------------------------------
-- Steady operations
-- ---------------------------------------------------------------------------

/-- Allocations may be abandoned and abandoned ones struck; what the call
relies on stays. -/
structure Steady (s s' : Shared) : Prop where
  donorInfo : ∀ x, (s'.alloc x).donorInfo = (s.alloc x).donorInfo
  state : ∀ x, (s'.alloc x).state = (s.alloc x).state ∨ (s'.alloc x).state = .abandoned
  struck : ∀ d x, s'.recorded d x = true → s.recorded d x = true
  kept : ∀ d x, s.recorded d x = true → (s.alloc x).state ≠ .abandoned → s'.recorded d x = true

/-- An operation on neither allocations nor donors is steady. -/
theorem Steady.exec {s : Shared} {op : Op} (hAlloc : (op.exec s).alloc = s.alloc)
    (hDonor : (op.exec s).donor = s.donor) : Steady s (op.exec s) where
  donorInfo x := by rw [hAlloc]
  state x := Or.inl (by rw [hAlloc])
  struck d x h := by rwa [Shared.recorded_congr hDonor] at h
  kept d x h _ := by rwa [Shared.recorded_congr hDonor]

/-- An operation whose entries do not count leaves the count. -/
theorem filterMap_log {α : Type} {f : Output → Option α} {op : Op} {s : Shared}
    (h : ∀ o, Emits s op o → f o = none) : (op.exec s).log.filterMap f = s.log.filterMap f := by
  rw [log_exec, List.filterMap_append,
    List.filterMap_eq_nil_iff.mpr fun o ho => h o (emits_of_mem ho), List.nil_append]

/-- Only the VM detection thread changes the VM list. -/
theorem vmList_exec {op : Op} (hRegister : ∀ v, op ≠ .register v)
    (hUnregister : ∀ paths, op ≠ .unregister paths) (s : Shared) :
    (op.exec s).vmList = s.vmList := by
  cases op with
  | register v => exact absurd rfl (hRegister v)
  | unregister paths => exact absurd rfl (hUnregister paths)
  | handleReservedAlloc d ids requested granted =>
    simp only [Op.exec]
    split <;> rfl
  | bookkeep d x =>
    simp only [Op.exec]
    split
    · rfl
    · split <;> rfl
  | commitState x =>
    simp only [Op.exec]
    split <;> rfl
  | tryClaim d x =>
    simp only [Op.exec]
    split <;> rfl
  | claimRelease c x call taken =>
    simp only [Op.exec]
    split <;> rfl
  | _ => rfl

/-- A return meanwhile abandons, and changes no donor. -/
theorem ByReturn.alloc {s : Shared} {a : AllocCall} {op : Op} (h : ByReturn s a op)
    (x : AllocId) :
    ((op.exec s).alloc x).donorInfo = (s.alloc x).donorInfo ∧
      (((op.exec s).alloc x).state = (s.alloc x).state ∨
        ((op.exec s).alloc x).state = .abandoned) := by
  have hChange := allocChange_exec op s x
  generalize (op.exec s).alloc x = a' at hChange
  cases hChange with
  | same => exact ⟨rfl, Or.inl rfl⟩
  | abandoned => exact ⟨rfl, Or.inr rfl⟩
  | requested _ => exact ⟨rfl, Or.inl rfl⟩
  | _ => exact h.elim

/-- A return meanwhile strikes abandoned allocations only. -/
theorem ByReturn.recorded {s : Shared} {a : AllocCall} {op : Op} (h : ByReturn s a op)
    (d : DonorAllocation) (x : AllocId) :
    (op.exec s).recorded d x = s.recorded d x ∨
      ((s.alloc x).state = .abandoned ∧ (op.exec s).recorded d x = false) := by
  rw [recorded_exec]
  cases op with
  | bookkeep d' y =>
    have hy : (s.alloc y).state = .abandoned := h
    by_cases hEq : d' = d ∧ y = x
    · obtain ⟨rfl, rfl⟩ := hEq
      exact Or.inr ⟨hy, by simp [recordedAfter]⟩
    · refine Or.inl ?_
      have hFalse : (decide (d' = d) && decide (y = x)) = false := by
        rw [← Bool.decide_and]
        exact decide_eq_false hEq
      rw [recordedAfter, hFalse, Bool.not_false, Bool.and_true]
  | reserveFromRegion => exact h.elim
  | handleReservedAlloc => exact h.elim
  | _ => exact Or.inl rfl

/-- What a return does meanwhile is steady. -/
theorem ByReturn.steady {s : Shared} {a : AllocCall} {op : Op} (h : ByReturn s a op) :
    Steady s (op.exec s) where
  donorInfo x := (h.alloc x).1
  state x := (h.alloc x).2
  struck d x hRec := by
    rcases h.recorded d x with hEq | ⟨-, hFalse⟩
    · rwa [hEq] at hRec
    · rw [hFalse] at hRec
      cases hRec
  kept d x hRec hLive := by
    rcases h.recorded d x with hEq | ⟨hDead, -⟩
    · rwa [hEq]
    · exact absurd hDead hLive

-- ---------------------------------------------------------------------------
-- Where the allocations of the call are
-- ---------------------------------------------------------------------------

/-- The donor the call deals with, and how many allocations at the head of
`rest` are recorded there. -/
def AllocPc.flight : AllocPc → Option (DonorAllocation × Nat)
  | .donate d size => some (d, size / granularity)
  | .confirm d size _ => some (d, size / granularity)
  | .handBack d n _ => some (d, n)
  | .commit d n _ => some (d, n)
  | .commitState d _ n _ => some (d, n)
  | _ => none

def AllocPc.flightCount (pc : AllocPc) : Nat := (pc.flight.map Prod.snd).getD 0

/-- The allocation between `backed` and `rest`. -/
def AllocPc.held : AllocPc → List AllocId
  | .commitState _ x _ _ => [x]
  | _ => []

/-- The allocations found abandoned when they were committed. -/
def AllocPc.dead : AllocPc → List AllocId
  | .commit _ _ abandoned => abandoned
  | .commitState _ _ _ abandoned => abandoned
  | .giveBack g => g.known
  | _ => []

/-- The allocation waits for a grant of `d`. -/
structure InFlight (s : Shared) (d : DonorAllocation) (x : AllocId) : Prop where
  only : s.OnlyAt d x
  there : (s.alloc x).state = .pendingCommit → s.recorded d x = true

/-- The allocation is backed by a region, which records it as long as it is
Committed. -/
def BackedBy (s : Shared) (x : AllocId) : Prop :=
  ∃ d, (s.alloc x).donorInfo = some d ∧ (s.alloc x).state ≠ .pendingCommit ∧ s.OnlyAt d x ∧
    ((s.alloc x).state = .committed → s.recorded d x = true)

/-- Where the allocations of a call on `rsvd` are recorded. -/
structure GrantInv (rsvd : List AllocId) (s : Shared) (a : AllocCall) : Prop where
  split : a.backed ++ a.pc.held ++ a.rest = rsvd
  unbacked : ∀ x ∈ a.rest, (s.alloc x).donorInfo = none ∧ s.Waiting x
  enough : a.pc.flightCount ≤ a.rest.length
  flying : ∀ d n, a.pc.flight = some (d, n) → ∀ x ∈ a.rest.take n, InFlight s d x
  grounded : ∀ x ∈ a.rest.drop a.pc.flightCount, s.Nowhere x
  backed : ∀ x ∈ a.backed, BackedBy s x
  held : ∀ d n, a.pc.flight = some (d, n) → ∀ x ∈ a.pc.held,
    (s.alloc x).donorInfo = some d ∧ s.Waiting x ∧ InFlight s d x
  dead : ∀ x ∈ a.pc.dead, (s.alloc x).state = .abandoned

section Stable

variable {s s' : Shared} (h : Steady s s')
include h

/-- What is abandoned stays so. -/
theorem Steady.abandoned {x : AllocId} (hx : (s.alloc x).state = .abandoned) :
    (s'.alloc x).state = .abandoned := by
  rcases h.state x with hEq | hDead
  · rw [hEq, hx]
  · exact hDead

/-- What waits for its donor still does. -/
theorem Steady.waiting {x : AllocId} (hx : s.Waiting x) : s'.Waiting x := by
  rcases hx with hx | hx
  · rcases h.state x with hEq | hDead
    · exact Or.inl (hEq.trans hx)
    · exact Or.inr hDead
  · exact Or.inr (h.abandoned hx)

/-- What is in no books is put into none. -/
theorem Steady.nowhere {x : AllocId} (hx : s.Nowhere x) : s'.Nowhere x := by
  intro d
  by_contra hRec
  have hOld := h.struck d x (Bool.eq_true_of_not_eq_false hRec)
  rw [hx d] at hOld
  cases hOld

/-- What a donor was asked for is still in its books, or abandoned. -/
theorem Steady.inFlight {d : DonorAllocation} {x : AllocId} (hx : InFlight s d x) :
    InFlight s' d x where
  only d' hRec := hx.only d' (h.struck d' x hRec)
  there hState := by
    rcases h.state x with hEq | hDead
    · rw [hEq] at hState
      exact h.kept d x (hx.there hState) (by rw [hState]; decide)
    · rw [hDead] at hState
      cases hState

/-- What is backed stays backed. -/
theorem Steady.backedBy {x : AllocId} (hx : BackedBy s x) : BackedBy s' x := by
  obtain ⟨d, hInfo, hState, hOnly, hRec⟩ := hx
  refine ⟨d, (h.donorInfo x).trans hInfo, ?_, fun d' hd' => hOnly d' (h.struck d' x hd'), ?_⟩
  · rcases h.state x with hEq | hDead
    · rwa [hEq]
    · rw [hDead]
      decide
  · intro hc
    rcases h.state x with hEq | hDead
    · rw [hEq] at hc
      exact h.kept d x (hRec hc) (by rw [hc]; decide)
    · rw [hDead] at hc
      cases hc

/-- The invariant survives what is steady. -/
theorem GrantInv.steady {rsvd : List AllocId} {a : AllocCall} (hInv : GrantInv rsvd s a) :
    GrantInv rsvd s' a where
  split := hInv.split
  unbacked x hx := by
    obtain ⟨hInfo, hWaiting⟩ := hInv.unbacked x hx
    exact ⟨(h.donorInfo x).trans hInfo, h.waiting hWaiting⟩
  enough := hInv.enough
  flying d n hpc x hx := h.inFlight (hInv.flying d n hpc x hx)
  grounded x hx := h.nowhere (hInv.grounded x hx)
  backed x hx := h.backedBy (hInv.backed x hx)
  held d n hpc x hx := by
    obtain ⟨hInfo, hWaiting, hFlight⟩ := hInv.held d n hpc x hx
    exact ⟨(h.donorInfo x).trans hInfo, h.waiting hWaiting, h.inFlight hFlight⟩
  dead x hx := h.abandoned (hInv.dead x hx)

end Stable

/-- A step that only moves the program counter, to one that knows no more. -/
theorem GrantInv.goto {rsvd : List AllocId} {s : Shared} {a a' : AllocCall}
    (hInv : GrantInv rsvd s a) (hBacked : a'.backed = a.backed) (hRest : a'.rest = a.rest)
    (hCount : a'.pc.flightCount = a.pc.flightCount)
    (hFlight : ∀ f, a'.pc.flight = some f → a.pc.flight = some f)
    (hHeld : a'.pc.held = a.pc.held) (hDead : ∀ x ∈ a'.pc.dead, x ∈ a.pc.dead) :
    GrantInv rsvd s a' where
  split := by rw [hBacked, hHeld, hRest, hInv.split]
  unbacked := by rw [hRest]; exact hInv.unbacked
  enough := by
    rw [hRest, hCount]
    exact hInv.enough
  flying d n hpc := by
    rw [hRest]
    exact hInv.flying d n (hFlight _ hpc)
  grounded := by
    rw [hRest, hCount]
    exact hInv.grounded
  backed := by rw [hBacked]; exact hInv.backed
  held d n hpc := by
    rw [hHeld]
    exact hInv.held d n (hFlight _ hpc)
  dead x hx := hInv.dead x (hDead x hx)

/-- As `goto`, where the call has nothing in flight afterwards. -/
theorem GrantInv.goto_idle {rsvd : List AllocId} {s : Shared} {a a' : AllocCall}
    (hInv : GrantInv rsvd s a) (hBacked : a'.backed = a.backed) (hRest : a'.rest = a.rest)
    (hCount : a'.pc.flightCount = a.pc.flightCount) (hFlight : a'.pc.flight = none)
    (hHeld : a'.pc.held = a.pc.held) (hDead : a'.pc.dead = []) : GrantInv rsvd s a' := by
  refine hInv.goto hBacked hRest hCount (fun f hf => ?_) hHeld fun x hx => ?_
  · rw [hFlight] at hf
    cases hf
  · rw [hDead] at hx
    cases hx

theorem InFlight.congr {s s' : Shared} {d : DonorAllocation} {x : AllocId}
    (hAlloc : s'.alloc x = s.alloc x) (hRec : ∀ d, s'.recorded d x = s.recorded d x)
    (h : InFlight s d x) : InFlight s' d x where
  only d' hd' := h.only d' (by rwa [hRec] at hd')
  there hState := by
    rw [hAlloc] at hState
    rw [hRec]
    exact h.there hState

theorem BackedBy.congr {s s' : Shared} {x : AllocId} (hAlloc : s'.alloc x = s.alloc x)
    (hRec : ∀ d, s'.recorded d x = s.recorded d x) (h : BackedBy s x) : BackedBy s' x := by
  obtain ⟨d, hInfo, hState, hOnly, hCommitted⟩ := h
  refine ⟨d, by rw [hAlloc, hInfo], by rwa [hAlloc], fun d' hd' => hOnly d' (by rwa [hRec] at hd'),
    fun hc => ?_⟩
  rw [hAlloc] at hc
  rw [hRec]
  exact hCommitted hc

-- ---------------------------------------------------------------------------
-- The steps of the call
-- ---------------------------------------------------------------------------

section Step

variable {rsvd backed rest : List AllocId} {last : Option SocketPath} {s : Shared}

/-- The list of the call has no allocation twice: one at the head of `rest` is
neither backed nor further down. -/
theorem GrantInv.apart (hNodup : rsvd.Nodup) {a : AllocCall} (h : GrantInv rsvd s a) :
    a.rest.Nodup ∧ (∀ x ∈ a.backed, x ∉ a.rest) ∧ ∀ x ∈ a.pc.held, x ∉ a.rest ∧ x ∉ a.backed := by
  rw [← h.split, List.nodup_append, List.nodup_append] at hNodup
  obtain ⟨⟨-, -, hHeld⟩, hRest, hApart⟩ := hNodup
  refine ⟨hRest, fun x hx hMem => ?_, fun x hx => ⟨fun hMem => ?_, fun hMem => ?_⟩⟩
  · exact hApart x (List.mem_append_left _ hx) x hMem rfl
  · exact hApart x (List.mem_append_right _ hx) x hMem rfl
  · exact hHeld x hMem x hx rfl

/-- The two parts of a list without repetitions share nothing. -/
theorem take_drop_apart {l : List AllocId} (h : l.Nodup) (n : Nat) {x : AllocId}
    (hTake : x ∈ l.take n) (hDrop : x ∈ l.drop n) : False := by
  rw [← List.take_append_drop n l, List.nodup_append] at h
  exact h.2.2 x hTake x hDrop rfl

/-- A slice of `rest` is entered into the books of a region. -/
theorem GrantInv.reserve (hNodup : rsvd.Nodup) {vms : List VmId} {d : DonorAllocation}
    {r : DonatableRegion} {size : Nat}
    (h : GrantInv rsvd s ⟨backed, rest, last, .scan vms⟩) (hr : s.region? d = some r)
    (hLe : size / granularity ≤ rest.length) :
    GrantInv rsvd ((Op.reserveFromRegion d size (rest.take (size / granularity))).exec s)
      ⟨backed, rest, last, .donate d size⟩ := by
  generalize hn : size / granularity = n at hLe ⊢
  have hNowhere : ∀ x ∈ rest, s.Nowhere x := h.grounded
  obtain ⟨hRest, hBacked, -⟩ := h.apart hNodup
  have hRec : ∀ d' x, ((Op.reserveFromRegion d size (rest.take n)).exec s).recorded d' x = true →
      s.recorded d' x = true ∨ d' = d ∧ x ∈ rest.take n := by
    intro d' x hx
    rw [recorded_exec, recordedAfter, Bool.or_eq_true, Bool.and_eq_true, Bool.and_eq_true,
      decide_eq_true_eq, decide_eq_true_eq] at hx
    rcases hx with hx | ⟨⟨hd, -⟩, hx⟩
    · exact Or.inl hx
    · exact Or.inr ⟨hd.symm, hx⟩
  have hOther : ∀ x, x ∉ rest → ∀ d',
      ((Op.reserveFromRegion d size (rest.take n)).exec s).recorded d' x = s.recorded d' x := by
    intro x hx d'
    have hTake : x ∉ rest.take n := fun hMem => hx (List.mem_of_mem_take hMem)
    rw [recorded_exec, recordedAfter, decide_eq_false hTake, Bool.and_false, Bool.or_false]
  refine ⟨h.split, h.unbacked, ?_, ?_, ?_, fun x hx => ?_, by simp [AllocPc.held],
    by simp [AllocPc.dead]⟩
  · simpa [AllocPc.flightCount, AllocPc.flight, hn] using hLe
  · intro d' n' hpc x hx
    simp only [AllocPc.flight, hn, Option.some.injEq, Prod.mk.injEq] at hpc
    obtain ⟨rfl, rfl⟩ := hpc
    refine ⟨fun d' hd' => ?_, fun _ => ?_⟩
    · rcases hRec d' x hd' with hOld | ⟨hd, -⟩
      · rw [hNowhere x (List.mem_of_mem_take hx)] at hOld
        cases hOld
      · exact hd
    · rw [recorded_exec, recordedAfter]
      simp [hr, hx]
  · intro x hx d'
    have hx : x ∈ rest.drop n := by
      simpa [AllocPc.flightCount, AllocPc.flight, hn] using hx
    by_contra hSome
    rcases hRec d' x (Bool.eq_true_of_not_eq_false hSome) with hOld | ⟨-, hTake⟩
    · rw [hNowhere x (List.mem_of_mem_drop hx)] at hOld
      cases hOld
    · exact take_drop_apart hRest n hTake hx
  · exact BackedBy.congr (s := s) rfl (hOther x (hBacked x hx)) (h.backed x hx)

/-- The confirmation strikes the part of the slice that is not backed. -/
theorem GrantInv.confirm (hNodup : rsvd.Nodup) {d : DonorAllocation} {size : Nat}
    {answer : Option Nat} (granted : Nat)
    (h : GrantInv rsvd s ⟨backed, rest, last, .confirm d size answer⟩)
    {a' : AllocCall} (hBacked : a'.backed = backed) (hRest : a'.rest = rest)
    (hLe : s.keeps d size granted ≤ size / granularity)
    (hCount : a'.pc.flightCount = s.keeps d size granted)
    (hFlight : ∀ f, a'.pc.flight = some f → f = (d, s.keeps d size granted))
    (hHeld : a'.pc.held = []) (hDead : a'.pc.dead = []) :
    GrantInv rsvd ((Op.handleReservedAlloc d (rest.take (size / granularity)) size granted).exec s)
      a' := by
  generalize hn : size / granularity = n at hLe ⊢
  generalize hk : s.keeps d size granted = k at hLe hCount hFlight
  obtain ⟨hDistinct, hApart, -⟩ := h.apart hNodup
  have hOldFlight : ∀ x ∈ rest.take n, InFlight s d x :=
    h.flying d n (by simp only [AllocPc.flight, hn])
  have hOldGround : ∀ x ∈ rest.drop n, s.Nowhere x := fun x hx => h.grounded x (by
    simpa [AllocPc.flightCount, AllocPc.flight, hn] using hx)
  have hAlloc : ((Op.handleReservedAlloc d (rest.take n) size granted).exec s).alloc = s.alloc := by
    simp only [Op.exec]
    split <;> rfl
  have hRec : ∀ d' x, ((Op.handleReservedAlloc d (rest.take n) size granted).exec s).recorded d' x =
      (s.recorded d' x && !(decide (d = d') && decide (x ∈ (rest.take n).drop k))) := by
    intro d' x
    by_cases hd : d = d'
    · subst hd
      rw [recorded_exec, recordedAfter, hk]
    · simp [recorded_exec, recordedAfter, hd]
  have hStruck : ∀ d' x,
      ((Op.handleReservedAlloc d (rest.take n) size granted).exec s).recorded d' x = true →
        s.recorded d' x = true := by
    intro d' x hx
    rw [hRec, Bool.and_eq_true] at hx
    exact hx.1
  -- the kept part of the slice is the head of the list
  have hKept : ∀ x ∈ rest.take k, x ∉ (rest.take n).drop k := by
    intro x hx hDrop
    rw [List.drop_take] at hDrop
    exact take_drop_apart hDistinct k hx (List.mem_of_mem_take hDrop)
  refine ⟨?_, ?_, ?_, ?_, ?_, ?_, ?_, ?_⟩
  · rw [hBacked, hHeld, hRest]
    exact h.split
  · rw [hRest]
    intro x hx
    rw [Shared.Waiting, hAlloc]
    exact h.unbacked x hx
  · have hEnough := h.enough
    simp only [AllocPc.flightCount, AllocPc.flight, hn, Option.map_some,
      Option.getD_some] at hEnough
    rw [hCount, hRest]
    exact le_trans hLe hEnough
  · intro d' n' hpc x hx
    cases hFlight _ hpc
    rw [hRest] at hx
    have hIn := hOldFlight x (List.take_subset_take_left rest hLe hx)
    refine ⟨fun d' hd' => hIn.only d' (hStruck d' x hd'), fun hState => ?_⟩
    rw [hAlloc] at hState
    rw [hRec, hIn.there hState, decide_eq_false (hKept x hx), Bool.and_false]
    rfl
  · rw [hRest, hCount]
    intro x hx d'
    by_contra hSome
    have hSome := Bool.eq_true_of_not_eq_false hSome
    have hOld := hStruck d' x hSome
    by_cases hTake : x ∈ rest.take n
    · cases (hOldFlight x hTake).only d' hOld
      have hDrop : x ∈ (rest.take n).drop k := by
        rw [← List.take_append_drop k (rest.take n)] at hTake
        rcases List.mem_append.mp hTake with hHead | hTail
        · rw [List.take_take, Nat.min_eq_left hLe] at hHead
          exact (take_drop_apart hDistinct k hHead hx).elim
        · exact hTail
      rw [hRec, decide_eq_true hDrop] at hSome
      simp at hSome
    · have hGround : x ∈ rest.drop n := by
        have hMem := List.mem_of_mem_drop hx
        rw [← List.take_append_drop n rest] at hMem
        exact (List.mem_append.mp hMem).resolve_left hTake
      rw [hOldGround x hGround] at hOld
      cases hOld
  · rw [hBacked]
    intro x hx
    have hx' : x ∉ (rest.take n).drop k := fun hMem =>
      hApart x hx (List.mem_of_mem_take (List.mem_of_mem_drop hMem))
    refine BackedBy.congr (s := s) (by rw [hAlloc]) (fun d' => ?_) (h.backed x hx)
    rw [hRec, decide_eq_false hx', Bool.and_false]
    exact Bool.and_true _
  · rw [hHeld]
    intro _ _ _ x hx
    cases hx
  · rw [hDead]
    intro x hx
    cases hx

/-- `commit_allocation` sets the donor of the next allocation. -/
theorem GrantInv.setDonor (hNodup : rsvd.Nodup) {d : DonorAllocation} {n : Nat}
    {abandoned : List AllocId} {x : AllocId}
    (h : GrantInv rsvd s ⟨backed, x :: rest, last, .commit d (n + 1) abandoned⟩) :
    GrantInv rsvd ((Op.setDonorInfo x d).exec s)
      ⟨backed, rest, last, .commitState d x n abandoned⟩ := by
  obtain ⟨hDistinct, hApart, -⟩ := h.apart hNodup
  have hx : x ∉ rest := (List.nodup_cons.mp hDistinct).1
  have hRec : ∀ d' y, ((Op.setDonorInfo x d).exec s).recorded d' y = s.recorded d' y :=
    fun d' y => recorded_exec ..
  have hSelf : ((Op.setDonorInfo x d).exec s).alloc x =
      { s.alloc x with donorInfo := some d } := by
    have hNone := (h.unbacked x (List.mem_cons_self ..)).1
    simp only [Op.exec, Shared.setAlloc, Function.update_self, hNone, Option.none_or]
  have hOther : ∀ y, y ≠ x → ((Op.setDonorInfo x d).exec s).alloc y = s.alloc y :=
    fun y hy => Function.update_of_ne hy _ _
  have hNe : ∀ y ∈ rest, y ≠ x := fun y hy heq => hx (heq ▸ hy)
  have hState : ∀ y, (((Op.setDonorInfo x d).exec s).alloc y).state = (s.alloc y).state := by
    intro y
    by_cases hy : y = x
    · rw [hy, hSelf]
    · rw [hOther y hy]
  refine ⟨?_, ?_, ?_, ?_, ?_, ?_, ?_, ?_⟩
  · have hSplit := h.split
    simpa [AllocPc.held] using hSplit
  · intro y hy
    rw [Shared.Waiting, hState, hOther y (hNe y hy)]
    exact h.unbacked y (List.mem_cons_of_mem _ hy)
  · have hEnough := h.enough
    simpa [AllocPc.flightCount, AllocPc.flight] using hEnough
  · intro d' n' hpc y hy
    cases hpc
    refine InFlight.congr (hOther y (hNe y (List.mem_of_mem_take hy))) (fun d' => hRec d' y) ?_
    exact h.flying d (n + 1) rfl y (List.mem_cons_of_mem _ hy)
  · intro y hy d'
    rw [hRec]
    exact h.grounded y hy d'
  · intro y hy
    have hyx : y ≠ x := fun heq => hApart y hy (heq ▸ List.mem_cons_self ..)
    exact (h.backed y hy).congr (hOther y hyx) fun d' => hRec d' y
  · intro d' n' hpc y hy
    cases hpc
    cases List.mem_singleton.mp hy
    have hFlight := h.flying d (n + 1) rfl x (List.mem_cons_self ..)
    refine ⟨by rw [hSelf], ?_, ⟨fun d' hd' => hFlight.only d' (by rwa [hRec] at hd'), fun hp => ?_⟩⟩
    · rw [Shared.Waiting, hState]
      exact (h.unbacked x (List.mem_cons_self ..)).2
    · rw [hState] at hp
      rw [hRec]
      exact hFlight.there hp
  · intro y hy
    rw [hState]
    exact h.dead y hy

/-- A commit is about one allocation. -/
theorem alloc_commitState {x y : AllocId} (h : y ≠ x) :
    ((Op.commitState x).exec s).alloc y = s.alloc y := by
  simp only [Op.exec]
  split
  · rfl
  · exact Function.update_of_ne h _ _

/-- The second half of `commit_allocation`: the allocation is backed, and
Committed unless it was abandoned. -/
theorem GrantInv.committed (hNodup : rsvd.Nodup) {d : DonorAllocation} {n : Nat}
    {abandoned abandoned' : List AllocId} {x : AllocId}
    (h : GrantInv rsvd s ⟨backed, rest, last, .commitState d x n abandoned⟩)
    (hDead : ∀ y ∈ abandoned', y ∈ abandoned ∨ y = x ∧ (s.alloc x).state = .abandoned) :
    GrantInv rsvd ((Op.commitState x).exec s)
      ⟨backed ++ [x], rest, last, .commit d n abandoned'⟩ := by
  obtain ⟨hDistinct, hApart, hHeld⟩ := h.apart hNodup
  obtain ⟨hxRest, hxBacked⟩ := hHeld x (List.mem_singleton.mpr rfl)
  obtain ⟨hInfo, hWaiting, hFlight⟩ := h.held d n rfl x (List.mem_singleton.mpr rfl)
  have hRec : ∀ d' y, ((Op.commitState x).exec s).recorded d' y = s.recorded d' y :=
    fun d' y => recorded_exec ..
  have hOther : ∀ y, y ≠ x → ((Op.commitState x).exec s).alloc y = s.alloc y :=
    fun y hy => alloc_commitState hy
  have hSelf : (((Op.commitState x).exec s).alloc x).donorInfo = (s.alloc x).donorInfo ∧
      ((s.alloc x).state = .pendingCommit ∧
          (((Op.commitState x).exec s).alloc x).state = .committed ∨
        (s.alloc x).state = .abandoned ∧
          (((Op.commitState x).exec s).alloc x).state = .abandoned) := by
    rcases hWaiting with hState | hState
    · simp [Op.exec, EphAllocation.commitState, hState, Shared.emit, Shared.setAlloc]
    · simp [Op.exec, EphAllocation.commitState, hState, Shared.emit, Shared.setAlloc]
  have hNe : ∀ y ∈ rest, y ≠ x := fun y hy heq => hxRest (heq ▸ hy)
  refine ⟨?_, ?_, h.enough, ?_, ?_, ?_, by simp [AllocPc.held], ?_⟩
  · have hSplit := h.split
    simpa [AllocPc.held] using hSplit
  · intro y hy
    rw [Shared.Waiting, hOther y (hNe y hy)]
    exact h.unbacked y hy
  · intro d' n' hpc y hy
    cases hpc
    refine InFlight.congr (hOther y (hNe y (List.mem_of_mem_take hy))) (fun d' => hRec d' y) ?_
    exact h.flying d n rfl y hy
  · intro y hy d'
    rw [hRec]
    exact h.grounded y hy d'
  · intro y hy
    rcases List.mem_append.mp hy with hy | hy
    · exact (h.backed y hy).congr (hOther y fun heq => hxBacked (heq ▸ hy)) fun d' => hRec d' y
    · cases List.mem_singleton.mp hy
      refine ⟨d, hSelf.1.trans hInfo, ?_, fun d' hd' => hFlight.only d' (by rwa [hRec] at hd'),
        fun hc => ?_⟩
      · rcases hSelf.2 with ⟨-, hState⟩ | ⟨-, hState⟩ <;> rw [hState] <;> decide
      · rcases hSelf.2 with ⟨hWas, -⟩ | ⟨-, hState⟩
        · rw [hRec]
          exact hFlight.there hWas
        · rw [hState] at hc
          cases hc
  · intro y hy
    rcases hDead y hy with hOld | ⟨rfl, hState⟩
    · have hAbandoned := h.dead y hOld
      by_cases hyx : y = x
      · subst hyx
        rcases hSelf.2 with ⟨hWas, -⟩ | ⟨-, hNow⟩
        · rw [hAbandoned] at hWas
          cases hWas
        · exact hNow
      · rw [hOther y hyx]
        exact hAbandoned
    · rcases hSelf.2 with ⟨hWas, -⟩ | ⟨-, hNow⟩
      · rw [hState] at hWas
        cases hWas
      · exact hNow

/-- The allocation being committed is not committed yet. -/
theorem GrantInv.not_parked {d : DonorAllocation} {x : AllocId} {n : Nat}
    {abandoned : List AllocId} (h : GrantInv rsvd s ⟨backed, rest, last, .commitState d x n abandoned⟩)
    (hParked : (s.alloc x).parked = true) : False := by
  obtain ⟨-, hWaiting, -⟩ := h.held d n rfl x (List.mem_singleton.mpr rfl)
  rcases hWaiting with hState | hState
  · simp [EphAllocation.parked, hState] at hParked
  · simp [EphAllocation.parked, hState] at hParked

/-- A panic of the call is out of the question. -/
theorem GrantInv.no_panic {a a' : AllocCall} {p : Panic} (h : GrantInv rsvd s a)
    (hs : AllocCall.Step s a (.panic p) a') : False := by
  cases hs with
  | reserveOut hOut => exact absurd (sizeToAllocate_div_le _ _) (Nat.not_le.mpr hOut)
  | @confirmOut backed rest last d size granted r hOut =>
    have hEnough := h.enough
    have hFinal := Nat.div_le_div_right (c := granularity) (finalSize_le r size granted)
    simp only [AllocPc.flightCount, AllocPc.flight, Option.map_some, Option.getD_some] at hEnough
    rw [List.length_take, Nat.min_eq_left hEnough] at hOut
    exact absurd hFinal (Nat.not_le.mpr hOut)
  | commitOut =>
    have hEnough := h.enough
    simp [AllocPc.flightCount, AllocPc.flight] at hEnough
  | donorSet hSet => exact hSet (h.unbacked _ (List.mem_cons_self ..)).1
  | giveBack hg => cases hg

/-- The books of the call stay in order at each of its steps. -/
theorem GrantInv.step (hNodup : rsvd.Nodup) {a a' : AllocCall} {op : Op} (h : GrantInv rsvd s a)
    (hs : AllocCall.Step s a op a') : GrantInv rsvd (op.exec s) a' := by
  by_cases hPanic : ∃ p, op = .panic p
  · obtain ⟨p, rfl⟩ := hPanic
    exact (h.no_panic hs).elim
  cases hs with
  | backedAll => exact h.goto_idle rfl rfl rfl rfl rfl rfl
  | look => exact GrantInv.steady (.exec rfl rfl) (h.goto_idle rfl rfl rfl rfl rfl rfl)
  | noDonor => exact GrantInv.steady (.exec rfl rfl) (h.goto_idle rfl rfl rfl rfl rfl rfl)
  | full => exact h.goto_idle rfl rfl rfl rfl rfl rfl
  | reserve _ hr _ _ hLe => exact h.reserve hNodup hr hLe
  | reserveOut _ => exact absurd ⟨_, rfl⟩ hPanic
  | donate =>
    exact GrantInv.steady (.exec rfl rfl)
      (h.goto rfl rfl rfl (fun _ hf => hf) rfl (by simp [AllocPc.dead]))
  | @refused backed rest last d size _ =>
    have hNone : s.keeps d size 0 = 0 := by
      unfold Shared.keeps
      split
      · rfl
      · simp [DonatableRegion.finalSize, DonatableRegion.usableGrant]
    exact h.confirm hNodup 0 rfl rfl (by rw [hNone]; exact Nat.zero_le _) hNone.symm
      (by simp [AllocPc.flight]) rfl rfl
  | @regionGone backed rest last d size granted hr =>
    have hNone : s.keeps d size granted = 0 := by
      rw [Shared.keeps, hr]
    refine h.confirm hNodup granted rfl rfl (by rw [hNone]; exact Nat.zero_le _) hNone.symm ?_ rfl rfl
    intro f hf
    rw [hNone]
    exact (Option.some.inj hf).symm
  | @owing backed rest last d size granted r _ hr _ =>
    have hKeeps : s.keeps d size granted = r.finalSize size granted / granularity := by
      rw [Shared.keeps, hr]
    refine h.confirm hNodup granted rfl rfl ?_ hKeeps.symm (fun f hf => ?_) rfl rfl
    · rw [hKeeps]
      exact Nat.div_le_div_right (finalSize_le r size granted)
    · rw [hKeeps]
      exact (Option.some.inj hf).symm
  | @confirmed backed rest last d size granted r _ hr _ _ =>
    have hKeeps : s.keeps d size granted = r.finalSize size granted / granularity := by
      rw [Shared.keeps, hr]
    refine h.confirm hNodup granted rfl rfl ?_ hKeeps.symm (fun f hf => ?_) rfl rfl
    · rw [hKeeps]
      exact Nat.div_le_div_right (finalSize_le r size granted)
    · rw [hKeeps]
      exact (Option.some.inj hf).symm
  | confirmOut _ => exact absurd ⟨_, rfl⟩ hPanic
  | handBack =>
    exact GrantInv.steady (.exec rfl rfl)
      (h.goto rfl rfl rfl (fun _ hf => hf) rfl (by simp [AllocPc.dead]))
  | allLive => exact h.goto_idle rfl rfl rfl rfl rfl rfl
  | someAbandoned =>
    refine h.goto rfl rfl rfl (by simp [AllocPc.flight]) rfl fun x hx => ?_
    simpa [AllocPc.dead, GiveBack.known] using hx
  | commitOut => exact absurd ⟨_, rfl⟩ hPanic
  | setDonor _ => exact h.setDonor hNodup
  | donorSet _ => exact absurd ⟨_, rfl⟩ hPanic
  | committedTwice hParked => exact (h.not_parked hParked).elim
  | live _ => exact h.committed hNodup fun y hy => Or.inl hy
  | @dead backed rest abandoned last d n x hState =>
    refine h.committed hNodup fun y hy => ?_
    rcases List.mem_append.mp hy with hy | hy
    · exact Or.inl hy
    · exact Or.inr ⟨List.mem_singleton.mp hy, hState⟩
  | @giveBack backed rest last g g' op hg =>
    have hNext : GrantInv rsvd s ⟨backed, rest, last, .giveBack g'⟩ :=
      h.goto rfl rfl rfl (by simp [AllocPc.flight]) rfl fun x hx => hg.known_known hx
    cases hg with
    | sent => exact GrantInv.steady (.exec rfl rfl) hNext
    | failed => exact GrantInv.steady (.exec rfl rfl) hNext
    | @book d ids todo x _ =>
      -- the call strikes what it found abandoned, as the consumer's calls do
      have hState : ByReturn s ⟨backed, rest, last, .giveBack ⟨d, ids, .book todo⟩⟩
          (.bookkeep d x) := h.dead x (by simp [AllocPc.dead, GiveBack.known])
      exact hNext.steady hState.steady
    | booked => exact hNext
  | gaveBack _ => exact h.goto_idle rfl rfl rfl rfl rfl rfl

end Step

end EphMemory.Orchestrator
