import EphMemory.Orchestrator.Rounds
import EphMemory.Orchestrator.Selecting

/-!
# Orchestrator — what a call backs when every donor grants in full

`allocate_eph_memory` goes on with the next donor after each answer, so it
takes from one region of a donor at most: the first with a whole chunk left.
With donors that grant what they are asked for it backs as many allocations as
these regions hold, which is less than all the undonated memory as soon as a
donor has two such regions.

* `DonorState.offer`, `DonorState.undonated` — the chunks of that region, and
  those of all regions;
* `FullRuns` — the runs in which every grant is full;
* `AllocCall.promised` — what the call will have backed, at every step;
* `backing_complete_per_donor` — what it backs in the end.
-/

namespace EphMemory.Orchestrator

open EphMemory.Lib

/-- The whole chunks a donor would be asked for. -/
def DonorState.offer (d : DonorState) : Nat :=
  match d.donatableRegions.find? DonatableRegion.hasRoom with
  | none => 0
  | some r => (r.size - r.donated) / granularity

/-- The whole chunks of all its regions. -/
def DonorState.undonated (d : DonorState) : Nat :=
  (d.donatableRegions.map fun r => (r.size - r.donated) / granularity).sum

def Shared.offers (s : Shared) (vms : List VmId) : Nat := (vms.map fun v => (s.donor v).offer).sum

/-- No donor in the VM list owes a revoke. -/
def Shared.NoDebt (s : Shared) : Prop :=
  ∀ d r, d.donorVm ∈ s.vmList.values → s.region? d = some r → r.revokedOwed = 0

def AllocCall.GrantsInFull (a : AllocCall) (ch : Choice) : Prop :=
  match a.pc with
  | .donate _ size => ch = .granted (some size)
  | _ => True

instance (a : AllocCall) (ch : Choice) : Decidable (a.GrantsInFull ch) := by
  unfold AllocCall.GrantsInFull
  split <;> infer_instance

def AllocCall.nextInFull (s : Shared) (a : AllocCall) (ch : Choice) : Option (Op × AllocCall) :=
  if a.GrantsInFull ch then a.next s ch else none

def AllocCall.MovesInFull (s : Shared) (a : AllocCall) (op : Op) (a' : AllocCall) : Prop :=
  ∃ ch, a.nextInFull s ch = some (op, a')

/-- The runs of a call on `rsvd` while nothing else happens. -/
def FullRuns (s : Shared) (rsvd : List AllocId) : Nat → Shared × AllocCall → Prop :=
  Runs Op.exec AllocCall.MovesInFull (fun _ _ _ => False) (s, .start rsvd)

/-- A move in full is one the call can make. -/
theorem AllocCall.MovesInFull.next {s : Shared} {a a' : AllocCall} {op : Op}
    (h : a.MovesInFull s op a') : ∃ ch, a.GrantsInFull ch ∧ a.next s ch = some (op, a') := by
  obtain ⟨ch, hNext⟩ := h
  unfold AllocCall.nextInFull at hNext
  split at hNext
  · exact ⟨ch, ‹_›, hNext⟩
  · cases hNext

-- ---------------------------------------------------------------------------
-- Asking one donor
-- ---------------------------------------------------------------------------

/-- A region is asked for what is left to back or what it has left, whichever is less. -/
theorem sizeToAllocate_div (r : DonatableRegion) (n : Nat) :
    r.sizeToAllocate (granularity * n) / granularity =
      min n ((r.size - r.donated) / granularity) := by
  unfold DonatableRegion.sizeToAllocate alignDown
  rw [Nat.mul_div_cancel _ granularity_pos]
  rcases Nat.le_total (granularity * n) (r.size - r.donated) with h | h
  · rw [Nat.min_eq_left h, Nat.mul_div_cancel_left n granularity_pos, Nat.min_eq_left]
    rw [Nat.le_div_iff_mul_le granularity_pos, Nat.mul_comm]
    exact h
  · have hLe : (r.size - r.donated) / granularity ≤ n := by
      rw [← Nat.mul_div_cancel_left n granularity_pos]
      exact Nat.div_le_div_right h
    rw [Nat.min_eq_right h, Nat.min_eq_right hLe]

/-- A donor without debt that grants whole chunks in full: all of it is kept. -/
theorem finalSize_full {r : DonatableRegion} (hOwed : r.revokedOwed = 0) {size : Nat}
    (hWhole : granularity ∣ size) :
    r.finalSize size size = size ∧ r.toRevoke size size + DonatableRegion.excess size size = 0 := by
  have hMod : size % granularity = 0 := Nat.mod_eq_zero_of_dvd hWhole
  simp [DonatableRegion.finalSize, DonatableRegion.toRevoke, DonatableRegion.usableGrant,
    DonatableRegion.excess, hOwed, hMod]

/-- The walk over the VM list, at one VM: it has nothing to offer, or it is
asked for what it offers and the call still needs. -/
theorem AllocCall.scan_cases {s : Shared} {backed rest : List AllocId} {last : Option SocketPath}
    {v : VmId} {vms : List VmId} {ch : Choice} {op : Op} {a' : AllocCall}
    (h : AllocCall.next s ⟨backed, rest, last, .scan (v :: vms)⟩ ch = some (op, a')) :
    ((s.donor v).offer = 0 ∧ op = .nop ∧ a' = ⟨backed, rest, last, .scan vms⟩) ∨
      ∃ d size, d.donorVm = v ∧ size / granularity = min rest.length (s.donor v).offer ∧
        granularity ∣ size ∧ (s.region? d).isSome ∧
        op = .reserveFromRegion d size (rest.take (size / granularity)) ∧
        a' = ⟨backed, rest, last, .donate d size⟩ := by
  unfold AllocCall.next at h
  simp only at h
  split at h
  · split at h
    · rename_i hNone
      cases h
      exact Or.inl ⟨by rw [DonorState.offer, hNone], rfl, rfl⟩
    · rename_i r hr
      have hOffer : (s.donor v).offer = (r.size - r.donated) / granularity := by
        rw [DonorState.offer, hr]
      rw [if_pos (sizeToAllocate_div_le r _)] at h
      cases h
      refine Or.inr ⟨⟨v, r.path⟩, _, rfl, ?_, dvd_sizeToAllocate r _, ?_, rfl, rfl⟩
      · rw [hOffer]
        exact sizeToAllocate_div r _
      · have hFind := DonorState.findRegion_of_mem (List.mem_of_find?_eq_some hr)
        exact Option.isSome_iff_exists.mpr ⟨r, hFind⟩
  · cases h

/-- Its confirmation, of a full grant: there is nothing to hand back. -/
theorem AllocCall.confirm_cases {s : Shared} {backed rest : List AllocId}
    {last : Option SocketPath} {d : DonorAllocation} {size : Nat} {r : DonatableRegion}
    {ch : Choice} {op : Op} {a' : AllocCall} (hr : s.region? d = some r)
    (hOwed : r.revokedOwed = 0) (hWhole : granularity ∣ size)
    (hEnough : size / granularity ≤ rest.length)
    (h : AllocCall.next s ⟨backed, rest, last, .confirm d size (some size)⟩ ch = some (op, a')) :
    op = .handleReservedAlloc d (rest.take (size / granularity)) size size ∧
      a' = ⟨backed, rest, last, .commit d (size / granularity) []⟩ := by
  obtain ⟨hFinal, hNone⟩ := finalSize_full hOwed hWhole
  unfold AllocCall.next at h
  simp only [hr, DonatableRegion.handleReservedAlloc, hFinal, hNone, List.length_take,
    Nat.min_eq_left hEnough, le_refl, if_true, Nat.lt_irrefl, if_false, gt_iff_lt] at h
  split at h
  · cases h
    exact ⟨rfl, rfl⟩
  · cases h

/-- And its answer. -/
theorem AllocCall.donate_cases {s : Shared} {backed rest : List AllocId}
    {last : Option SocketPath} {d : DonorAllocation} {size : Nat} {ch : Choice} {op : Op}
    {a' : AllocCall}
    (hInFull : AllocCall.GrantsInFull ⟨backed, rest, last, .donate d size⟩ ch)
    (h : AllocCall.next s ⟨backed, rest, last, .donate d size⟩ ch = some (op, a')) :
    op = .ephMemDonateCapacity d size (some size) ∧
      a' = ⟨backed, rest, last, .confirm d size (some size)⟩ := by
  cases hInFull
  cases h
  exact ⟨rfl, rfl⟩

-- ---------------------------------------------------------------------------
-- What stays of the state
-- ---------------------------------------------------------------------------

/-- The donors to ask are listed, and come after the last one that was asked. -/
theorem mem_candidates {s : Shared} (hKeyed : s.ListKeyed) {last : Option SocketPath} {v : VmId}
    (h : v ∈ AllocCall.candidates s last) :
    v ∈ s.vmList.values ∧ ∀ p, last = some p → p < s.pathOf v := by
  obtain ⟨e, he, rfl⟩ := List.mem_map.mp h
  obtain ⟨hMem, hPast⟩ := List.mem_filter.mp he
  refine ⟨List.mem_map_of_mem hMem, ?_⟩
  rintro p rfl
  rw [hKeyed e.1 e.2 (OrdMap.mem_entries_iff.mp hMem)]
  exact of_decide_eq_true hPast

/-- A section of one donor leaves the others alone. -/
theorem donor_exec {op : Op} {v : VmId} (h : ∀ d, op.books? = some d → d.donorVm ≠ v)
    (s : Shared) : (op.exec s).donor v = s.donor v := by
  cases op with
  | reserveFromRegion d size ids => exact Function.update_of_ne (h d rfl).symm _ _
  | handleReservedAlloc d ids n m =>
    simp only [Op.exec]
    split
    · rfl
    · exact Function.update_of_ne (h d rfl).symm _ _
  | bookkeep d x =>
    simp only [Op.exec]
    split
    · rfl
    · split <;> exact Function.update_of_ne (h d rfl).symm _ _
  | bookDebt d n => exact Function.update_of_ne (h d rfl).symm _ _
  | commitState x =>
    simp only [Op.exec]
    split <;> rfl
  | tryClaim d x =>
    simp only [Op.exec]
    split <;> rfl
  | claimRelease c x call taken =>
    simp only [Op.exec]
    split <;> rfl
  | _ => rfl

/-- Only a revoke runs up a debt. -/
theorem owed_exec {op : Op} {s : Shared} {d : DonorAllocation} (hOp : ∀ n, op ≠ .bookDebt d n)
    (h : ∀ r, s.region? d = some r → r.revokedOwed = 0) :
    ∀ r, (op.exec s).region? d = some r → r.revokedOwed = 0 := by
  intro r' hr'
  cases hr : s.region? d with
  | none =>
    rw [region?_exec_none op hr] at hr'
    cases hr'
  | some r =>
    obtain ⟨r'', hr'', hChange⟩ := regionChange_exec op hr
    rw [hr''] at hr'
    cases hr'
    have hOwed := h r hr
    cases hChange with
    | same _ _ _ _ => exact hOwed
    | reserved => exact hOwed
    | confirmed => exact Nat.sub_eq_zero_of_le (hOwed ▸ Nat.zero_le _)
    | booked =>
      unfold DonatableRegion.bookkeep
      split <;> exact hOwed
    | debt => exact absurd rfl (hOp _)

-- ---------------------------------------------------------------------------
-- What the call will have backed
-- ---------------------------------------------------------------------------

/-- The donors the call may still ask. -/
def AllocCall.upcoming (s : Shared) (a : AllocCall) : List VmId :=
  match a.pc with
  | .loop => candidates s a.lastPath
  | .scan vms => vms
  | .giveBack _ => []
  | .done => []
  | pc => candidates s (pc.flight.map fun f => s.pathOf f.1.donorVm)

/-- The allocations backed in the end, when every grant to come is full. -/
def AllocCall.promised (s : Shared) (a : AllocCall) : Nat :=
  a.backed.length + a.pc.held.length + a.pc.flightCount +
    min (a.rest.length - a.pc.flightCount) (s.offers (a.upcoming s))

/-- The call is giving memory back. -/
def AllocPc.returning : AllocPc → Bool
  | .handBack _ _ _ => true
  | .giveBack _ => true
  | _ => false

/-- A call in a run of full grants, which started in `s₀`. -/
structure FullInv (s₀ s : Shared) (a : AllocCall) : Prop where
  untouched : ∀ v ∈ a.upcoming s₀, s.donor v = s₀.donor v
  noDebt : ∀ d r, d.donorVm ∈ s₀.vmList.values → s.region? d = some r → r.revokedOwed = 0
  pending : ∀ x ∈ a.pc.held ++ a.rest, (s.alloc x).state = .pendingCommit
  dead : a.pc.dead = []
  listed : ∀ d n, a.pc.flight = some (d, n) → d.donorVm ∈ s₀.vmList.values ∧ (s.region? d).isSome
  whole : ∀ d size, a.pc = .donate d size → granularity ∣ size
  full : ∀ d size granted, a.pc = .confirm d size granted →
    granularity ∣ size ∧ granted = some size
  nothingToReturn : a.pc.returning = false

section Step

variable {s₀ s : Shared} {rsvd : List AllocId} {a a' : AllocCall} {op : Op}

/-- A step that lets the donors to come and the allocations to back be. -/
theorem FullInv.goto (h : FullInv s₀ s a) (hOp : ∀ d n, op ≠ .bookDebt d n)
    (hUpcoming : ∀ v ∈ a'.upcoming s₀, v ∈ a.upcoming s₀ ∧ (op.exec s).donor v = s.donor v)
    (hPending : ∀ x ∈ a'.pc.held ++ a'.rest, x ∈ a.pc.held ++ a.rest ∧
      ((op.exec s).alloc x).state = (s.alloc x).state)
    (hDead : a'.pc.dead = [])
    (hListed : ∀ d n, a'.pc.flight = some (d, n) →
      d.donorVm ∈ s₀.vmList.values ∧ (s.region? d).isSome)
    (hWhole : ∀ d size, a'.pc = .donate d size → granularity ∣ size)
    (hFull : ∀ d size granted, a'.pc = .confirm d size granted →
      granularity ∣ size ∧ granted = some size)
    (hNothing : a'.pc.returning = false) :
    FullInv s₀ (op.exec s) a' where
  untouched v hv := (hUpcoming v hv).2.trans (h.untouched v (hUpcoming v hv).1)
  noDebt d r hd := owed_exec (hOp d) (h.noDebt d · hd) r
  pending x hx := (hPending x hx).2.trans (h.pending x (hPending x hx).1)
  dead := hDead
  listed d n hpc := by
    rw [(evolves_exec op s).region d]
    exact hListed d n hpc
  whole := hWhole
  full := hFull
  nothingToReturn := hNothing

/-- As `goto`, where the call has nothing in flight afterwards. -/
theorem FullInv.goto_idle (h : FullInv s₀ s a) (hOp : ∀ d n, op ≠ .bookDebt d n)
    (hUpcoming : ∀ v ∈ a'.upcoming s₀, v ∈ a.upcoming s₀ ∧ (op.exec s).donor v = s.donor v)
    (hPending : ∀ x ∈ a'.pc.held ++ a'.rest, x ∈ a.pc.held ++ a.rest ∧
      ((op.exec s).alloc x).state = (s.alloc x).state)
    (hDead : a'.pc.dead = []) (hFlight : a'.pc.flight = none)
    (hNothing : a'.pc.returning = false) :
    FullInv s₀ (op.exec s) a' := by
  refine h.goto hOp hUpcoming hPending hDead (fun d n hf => ?_) (fun d size hpc => ?_)
    (fun d size granted hpc => ?_) hNothing
  · rw [hFlight] at hf
    cases hf
  · rw [hpc] at hFlight
    cases hFlight
  · rw [hpc] at hFlight
    cases hFlight

/-- Each donor is granted what it has promised, so what is promised in all stays. -/
theorem FullInv.step (hKeyed : s₀.ListKeyed) (hNodup : rsvd.Nodup) (hGrant : GrantInv rsvd s a)
    (hAsk : AskInv s₀ s a) (h : FullInv s₀ s a) (hMove : a.MovesInFull s op a') :
    FullInv s₀ (op.exec s) a' ∧ a'.promised s₀ = a.promised s₀ := by
  obtain ⟨ch, hInFull, hNext⟩ := hMove.next
  have hs := AllocCall.step_of_next hNext
  by_cases hPanic : ∃ p, op = .panic p
  · obtain ⟨p, rfl⟩ := hPanic
    exact (hGrant.no_panic hs).elim
  cases hs with
  | backedAll =>
    refine ⟨h.goto_idle (by simp) (fun v hv => by cases hv) (fun x hx => ⟨hx, rfl⟩) rfl rfl rfl, ?_⟩
    simp [AllocCall.promised, AllocCall.upcoming, AllocPc.flightCount, AllocPc.flight,
      AllocPc.held]
  | @look backed rest last =>
    refine ⟨h.goto_idle (by simp) (fun v hv => ⟨?_, rfl⟩) (fun x hx => ⟨hx, rfl⟩) rfl rfl rfl,
      ?_⟩
    · rwa [AllocCall.upcoming, candidates_congr hAsk.scene.vmList] at hv
    · rw [candidates_congr hAsk.scene.vmList]
      rfl
  | noDonor =>
    refine ⟨h.goto_idle (by simp) (fun v hv => by cases hv) (fun x hx => ⟨hx, rfl⟩) rfl rfl rfl, ?_⟩
    simp [AllocCall.promised, AllocCall.upcoming, AllocPc.flightCount, AllocPc.flight,
      AllocPc.held, Shared.offers]
  | @full backed rest last v vms =>
    refine ⟨h.goto_idle (by simp) (fun w hw => ⟨List.mem_cons_of_mem v hw, rfl⟩)
      (fun x hx => ⟨hx, rfl⟩) rfl rfl rfl, ?_⟩
    rcases AllocCall.scan_cases hNext with ⟨hOffer, -, -⟩ | ⟨_, _, -, -, -, -, hOp, -⟩
    · have hSame : s.donor v = s₀.donor v := h.untouched v (List.mem_cons_self ..)
      rw [hSame] at hOffer
      simp [AllocCall.promised, AllocCall.upcoming, AllocPc.flightCount, AllocPc.flight,
        Shared.offers, hOffer, AllocPc.held]
    · cases hOp
  | @reserve backed rest last v vms r size _ _ _ _ _ =>
    rcases AllocCall.scan_cases hNext with ⟨-, hOp, -⟩ | ⟨d, size', -, hSize, hWhole, hd, hOp, -⟩
    · cases hOp
    · cases hOp
      obtain ⟨pre, hPre⟩ := hAsk.scanning _ rfl
      have hPast := (candidates_past hKeyed hPre).1
      have hListed : v ∈ s₀.vmList.values :=
        (mem_candidates hKeyed (hPre ▸ List.mem_append_cons_self)).1
      have hLater : ∀ w ∈ vms, v ≠ w := by
        rintro w hw rfl
        rw [← hPast] at hw
        exact lt_irrefl _ ((mem_candidates hKeyed hw).2 _ rfl)
      rw [h.untouched v (List.mem_cons_self ..)] at hSize
      refine ⟨h.goto (by simp) (fun w hw => ?_) (fun x hx => ⟨hx, rfl⟩) rfl (fun d' n hpc => ?_)
        (fun d' size' hpc => ?_) (by simp) rfl, ?_⟩
      · have hw : w ∈ vms := hPast ▸ hw
        refine ⟨List.mem_cons_of_mem v hw, donor_exec (fun d' hd' => ?_) s⟩
        cases hd'
        exact hLater w hw
      · cases hpc
        exact ⟨hListed, hd⟩
      · cases hpc
        exact hWhole
      · have hUp : AllocCall.upcoming s₀ ⟨backed, rest, last, .donate ⟨v, r.path⟩ size⟩ = vms :=
          hPast
        simp only [AllocCall.promised, hUp, AllocPc.flightCount, AllocPc.flight, AllocPc.held,
          Option.map_some, Option.map_none, Option.getD_some, Option.getD_none, List.length_nil]
        simp only [AllocCall.upcoming, Shared.offers, List.map_cons, List.sum_cons, hSize]
        omega
  | @donate backed rest last d size granted =>
    obtain ⟨hOp, -⟩ := AllocCall.donate_cases hInFull hNext
    cases hOp
    refine ⟨h.goto (by simp) (fun v hv => ⟨hv, rfl⟩) (fun x hx => ⟨hx, rfl⟩) rfl
      (fun d' n hpc => h.listed d' n hpc) (by simp) (fun d' size' granted' hpc => ?_) rfl, rfl⟩
    cases hpc
    exact ⟨h.whole d size rfl, rfl⟩
  | @refused backed rest last d size _ => cases (h.full _ _ _ rfl).2
  | @regionGone backed rest last d size granted hr =>
    have hSome := (h.listed d _ rfl).2
    rw [hr] at hSome
    cases hSome
  | @owing backed rest last d size granted r _ hr _ =>
    obtain ⟨hWhole, hGranted⟩ := h.full _ _ _ rfl
    cases hGranted
    obtain ⟨hListed, -⟩ := h.listed d _ rfl
    obtain ⟨-, hPc⟩ := AllocCall.confirm_cases hr (h.noDebt d r hListed hr) hWhole hGrant.enough hNext
    cases hPc
  | @confirmed backed rest last d size granted r _ hr _ _ =>
    obtain ⟨hWhole, hGranted⟩ := h.full _ _ _ rfl
    cases hGranted
    obtain ⟨hListed, hSome⟩ := h.listed d _ rfl
    have hFinal := (finalSize_full (h.noDebt d r hListed hr) hWhole).1
    rw [hFinal]
    refine ⟨h.goto (by simp) (fun v hv => ⟨hv, donor_exec (fun d' hd' => ?_) s⟩)
      (fun x hx => ⟨hx, ?_⟩) rfl (fun d' n hpc => ?_) (by simp) (by simp) rfl, rfl⟩
    · cases hd'
      rintro rfl
      exact lt_irrefl _ ((mem_candidates hKeyed hv).2 _ rfl)
    · simp only [Op.exec]
      split <;> rfl
    · cases hpc
      exact ⟨hListed, hSome⟩
  | handBack => cases h.nothingToReturn
  | @allLive backed rest last d =>
    rw [hAsk.scene.path]
    refine ⟨h.goto_idle (by simp) (fun v hv => ⟨hv, rfl⟩) (fun x hx => ⟨hx, rfl⟩) rfl rfl rfl, rfl⟩
  | @someAbandoned backed rest abandoned last d =>
    have hNone : abandoned = [] := h.dead
    cases hNone
    unfold AllocCall.next at hNext
    cases hNext
  | @setDonor backed rest abandoned last d n x _ =>
    have hPending : ∀ y, (((Op.setDonorInfo x d).exec s).alloc y).state = (s.alloc y).state := by
      intro y
      refine update_cases (P := fun a => a.state = (s.alloc y).state) (fun hEq => ?_) fun _ => rfl
      rw [hEq]
    refine ⟨h.goto (by simp) (fun v hv => ⟨hv, rfl⟩) (fun y hy => ⟨hy, hPending y⟩) h.dead
      (fun d' n' hpc => ?_) (by simp) (by simp) rfl, ?_⟩
    · cases hpc
      exact h.listed d (n + 1) rfl
    · simp only [AllocCall.promised, AllocCall.upcoming, AllocPc.flightCount, AllocPc.flight,
        AllocPc.held, Option.map_some, Option.getD_some, List.length_cons, List.length_nil]
      omega
  | committedTwice hParked => exact (hGrant.not_parked hParked).elim
  | @live backed rest abandoned last d n x hState =>
    have hNot : x ∉ rest := ((hGrant.apart hNodup).2.2 x (List.mem_singleton.mpr rfl)).1
    refine ⟨h.goto (by simp) (fun v hv => ⟨hv, donor_exec (fun d' hd' => by cases hd') s⟩)
      (fun y hy => ⟨List.mem_append_right _ hy, ?_⟩) h.dead (fun d' n' hpc => ?_) (by simp)
      (by simp) rfl,
      ?_⟩
    · rw [alloc_commitState]
      rintro rfl
      exact hNot hy
    · cases hpc
      exact h.listed d n rfl
    · simp only [AllocCall.promised, AllocCall.upcoming, AllocPc.flightCount, AllocPc.flight,
        AllocPc.held, Option.map_some, Option.getD_some, List.length_append, List.length_cons,
        List.length_nil]
  | @dead backed rest abandoned last d n x hState =>
    have hPending := h.pending x (List.mem_append_left _ (List.mem_singleton.mpr rfl))
    rw [hState] at hPending
    cases hPending
  | giveBack hg => cases h.nothingToReturn
  | gaveBack _ => cases h.nothingToReturn
  | _ => exact absurd ⟨_, rfl⟩ hPanic

end Step

-- ---------------------------------------------------------------------------
-- What it has backed in the end
-- ---------------------------------------------------------------------------

/-- A run with full grants is a run of the call. -/
theorem FullRuns.runs {s : Shared} {rsvd : List AllocId} {n : Nat} {q : Shared × AllocCall}
    (h : FullRuns s rsvd n q) : AllocRuns s rsvd n q := by
  refine Runs.mono (fun hMove => ?_) (fun hNever => hNever.elim) h
  obtain ⟨ch, -, hNext⟩ := hMove.next
  exact ⟨ch, hNext⟩

section Run

variable {s : Shared} {rsvd : List AllocId} (hKeyed : s.ListKeyed)
  (hFree : ∀ v, s.donorLock v = none) (hNoDebt : s.NoDebt) (hDistinct : rsvd.Nodup)
  (hFresh : ∀ x ∈ rsvd, (s.alloc x).donorInfo = none ∧ (s.alloc x).state = .pendingCommit ∧
    s.Nowhere x)
include hKeyed hFree hNoDebt hDistinct hFresh

/-- Along such a run the call backs what the donors offer, up to what was reserved. -/
theorem FullRuns.inv {n : Nat} {q : Shared × AllocCall} (h : FullRuns s rsvd n q) :
    (GrantInv rsvd q.1 q.2 ∧ AskInv s q.1 q.2) ∧ FullInv s q.1 q.2 ∧
      q.2.promised s = min rsvd.length (s.offers s.vmList.values) := by
  have hWaiting : ∀ x ∈ rsvd, (s.alloc x).donorInfo = none ∧ s.Waiting x ∧ s.Nowhere x :=
    fun x hx => ⟨(hFresh x hx).1, Or.inl (hFresh x hx).2.1, (hFresh x hx).2.2⟩
  have hBoth : ∀ {n q}, FullRuns s rsvd n q → GrantInv rsvd q.1 q.2 ∧ AskInv s q.1 q.2 :=
    fun hRun => AllocRuns.inv hKeyed hFree hDistinct hWaiting hRun.runs
  refine ⟨hBoth h, ?_⟩
  induction h with
  | refl =>
    refine ⟨⟨fun _ _ => rfl, hNoDebt, fun x hx => (hFresh x hx).2.1, rfl, nofun, nofun, nofun, rfl⟩,
      ?_⟩
    have hAll : AllocCall.candidates s none = s.vmList.values := by
      rw [AllocCall.candidates, List.filter_eq_self.mpr fun _ _ => rfl, OrdMap.values]
    rw [← hAll, AllocCall.promised]
    exact (Nat.zero_add _)
  | own hRun hMove ih =>
    obtain ⟨hGrant, hAsk⟩ := hBoth hRun
    obtain ⟨hFull, hSame⟩ := ih.1.step hKeyed hDistinct hGrant hAsk hMove
    exact ⟨hFull, hSame.trans ih.2⟩
  | env _ hNever _ => exact hNever.elim

/-- With a full grant to every question, the call can always go on. -/
theorem FullRuns.moves {n : Nat} {t : Shared} {a : AllocCall} (h : FullRuns s rsvd n (t, a))
    (hPc : a.pc ≠ .done) : ∃ op a', a.MovesInFull t op a' := by
  obtain ⟨⟨-, hAsk⟩, -, -⟩ := FullRuns.inv hKeyed hFree hNoDebt hDistinct hFresh h
  obtain ⟨op, a', ch, hNext⟩ := AllocCall.moves hAsk.scene.unlocked hPc
  by_cases hInFull : a.GrantsInFull ch
  · exact ⟨op, a', ch, by rw [AllocCall.nextInFull, if_pos hInFull, hNext]⟩
  · obtain ⟨backed, rest, last, pc⟩ := a
    cases pc with
    | donate d size => exact ⟨_, _, .granted (some size), if_pos rfl⟩
    | _ => exact absurd trivial hInFull

/-- **What is backed when every donor grants in full.** For every VM list,
every state of its donors' regions without debts and every list of reserved
allocations: the call ends, and has backed as many of them as fit in the
donors' offers, one region of each donor. -/
theorem backing_complete_per_donor :
    (∃ bound, ∀ n q, FullRuns s rsvd n q → n ≤ bound) ∧
      ∀ n t a, FullRuns s rsvd n (t, a) →
        (a.pc ≠ .done → ∃ op a', a.MovesInFull t op a') ∧
        (a.pc = .done →
          a.backed = rsvd.take (min rsvd.length (s.offers s.vmList.values))) := by
  have hWaiting : ∀ x ∈ rsvd, (s.alloc x).donorInfo = none ∧ s.Waiting x ∧ s.Nowhere x :=
    fun x hx => ⟨(hFresh x hx).1, Or.inl (hFresh x hx).2.1, (hFresh x hx).2.2⟩
  refine ⟨⟨_, fun n q hRun => AllocRuns.bounded hKeyed hFree hDistinct hWaiting hRun.runs⟩,
    fun n t a hRun => ?_⟩
  obtain ⟨⟨hGrant, -⟩, -, hPromised⟩ := FullRuns.inv hKeyed hFree hNoDebt hDistinct hFresh hRun
  refine ⟨FullRuns.moves hKeyed hFree hNoDebt hDistinct hFresh hRun, fun hDone => ?_⟩
  have hLength : a.promised s = a.backed.length := by
    obtain ⟨backed, rest, last, pc⟩ := a
    cases hDone
    simp [AllocCall.promised, AllocCall.upcoming, AllocPc.flightCount, AllocPc.flight,
      AllocPc.held, Shared.offers]
  rw [← hPromised, hLength]
  exact (hGrant.returned hDone).1

end Run

/-- Fresh donors owe nothing. -/
theorem FreshDonors.noDebt {s : Shared} (h : FreshDonors s.donor) : s.NoDebt := by
  intro d r _ hr
  have hNew := h d.donorVm r (List.mem_of_find?_eq_some hr)
  rw [hNew]
  rfl

/-- VM 0 offers four chunks: two are asked for and both are backed. -/
theorem backing_complete_per_donor_demo :
    (∃ bound, ∀ n q, FullRuns (demoReserved demoDonor) [1, 2] n q → n ≤ bound) ∧
      ∀ n t a, FullRuns (demoReserved demoDonor) [1, 2] n (t, a) → a.pc = .done →
        a.backed = [1, 2] := by
  obtain ⟨hKeyed, hFree, hNew⟩ := demoReserved_ready demoDonor_fresh
  have hOffers : (demoReserved demoDonor).offers (demoReserved demoDonor).vmList.values = 4 := by
    decide +kernel
  obtain ⟨hBound, hRuns⟩ := backing_complete_per_donor hKeyed hFree
    (FreshDonors.noDebt demoDonor_fresh) (by decide) hNew
  refine ⟨hBound, fun n t a hRun hDone => ?_⟩
  have hEnd := (hRuns n t a hRun).2 hDone
  rw [hOffers] at hEnd
  exact hEnd

/-- VM 0 donates from two regions of one chunk each. -/
def splitDonor : VmId → DonorState := fun v =>
  if v = 0 then ⟨[.new granularity 7, .new granularity 8], by simp [DonatableRegion.new]⟩
  else ⟨[], List.nodup_nil⟩

theorem splitDonor_fresh : FreshDonors splitDonor := by
  intro v r hr
  unfold splitDonor at hr
  split at hr
  · rcases List.mem_cons.mp hr with rfl | hr
    · rfl
    · rw [List.mem_singleton.mp hr]
      rfl
  · cases hr

/-- Look, ask VM 0 for a chunk of its first region, commit it, find no other
donor. -/
def splitChoices : List Choice :=
  [.go, .go, .granted (some granularity), .go, .go, .go, .go, .go, .go, .go]

/-- Two chunks are wanted and VM 0 has two, but one is backed: the second
region is never looked at. -/
theorem second_region_unused :
    ∃ s rsvd, s.ListKeyed ∧ (∀ v, s.donorLock v = none) ∧ s.NoDebt ∧ rsvd.Nodup ∧
      (∀ x ∈ rsvd, (s.alloc x).donorInfo = none ∧ (s.alloc x).state = .pendingCommit ∧
        s.Nowhere x) ∧
      ∃ n t a, FullRuns s rsvd n (t, a) ∧ a.pc = .done ∧
        a.backed.length <
          min rsvd.length (s.vmList.values.map fun v => (s.donor v).undonated).sum := by
  obtain ⟨hKeyed, hFree, hNew⟩ := demoReserved_ready splitDonor_fresh
  refine ⟨demoReserved splitDonor, [1, 2], hKeyed, hFree, FreshDonors.noDebt splitDonor_fresh,
    by decide, hNew, ?_⟩
  have hSome : (alone Op.exec AllocCall.nextInFull splitChoices
      (demoReserved splitDonor, .start [1, 2])).isSome = true := by decide +kernel
  obtain ⟨⟨t, a⟩, hRun⟩ := Option.isSome_iff_exists.mp hSome
  have hEnd : (alone Op.exec AllocCall.nextInFull splitChoices
      (demoReserved splitDonor, .start [1, 2])).map Prod.snd =
        some ⟨[1], [2], some 0, .done⟩ := by decide +kernel
  rw [hRun] at hEnd
  cases hEnd
  exact ⟨_, t, _, Runs.of_alone hRun, rfl, by decide +kernel⟩

end EphMemory.Orchestrator
