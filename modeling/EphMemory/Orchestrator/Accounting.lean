import EphMemory.Orchestrator.Steps

/-!
# Orchestrator — the books of a region

A region's `donated` is raised when a reservation is made and lowered only when
a returned allocation is struck from the books, while entries disappear in two
places. `RegionOk` is what every one of these sections keeps.

* `RegionOk.reserve` / `RegionOk.handleReservedAlloc` / `RegionOk.bookkeep` —
  the sections, one by one;
* `AllocCall.InRange` — a grant in progress never indexes past its slice;
* `region_accounting` — in every reachable state every region's books are in
  order, no slice index was out of range and no region was ever told to take
  back more than it had donated.
-/

namespace EphMemory.Orchestrator

open EphMemory.Lib

/-- The books of a region are in order. -/
structure RegionOk (r : DonatableRegion) : Prop where
  aligned : granularity ∣ r.donated
  covered : granularity * r.allocations.size ≤ r.donated
  within : r.donated ≤ r.size
  own : ∀ k x, r.allocations.get? k = some x → x = k

-- ---------------------------------------------------------------------------
-- The sections
-- ---------------------------------------------------------------------------

/-- A region that has donated nothing is in order. -/
theorem RegionOk.new (size : Nat) (path : QomPath) : RegionOk (.new size path) where
  aligned := Nat.dvd_zero _
  covered := Nat.le_refl _
  within := Nat.zero_le _
  own := by
    intro k x hx
    cases hx

theorem get?_insertAll_own {m : OrdMap Nat AllocId} (ids : List AllocId) {k x : AllocId}
    (hOwn : ∀ k x, m.get? k = some x → x = k)
    (h : (m.insertAll (ids.map fun x => (x, x))).get? k = some x) : x = k := by
  induction ids generalizing m with
  | nil => exact hOwn k x h
  | cons y rest ih =>
    rw [List.map_cons, OrdMap.insertAll] at h
    refine ih (fun k x hx => ?_) h
    rw [OrdMap.get?_insert] at hx
    split at hx
    · rename_i hky
      cases hx
      exact hky.symm
    · exact hOwn k x hx

/-- A region is asked for no more than there is to back. -/
theorem sizeToAllocate_div_le (r : DonatableRegion) (n : Nat) :
    r.sizeToAllocate (granularity * n) / granularity ≤ n := by
  unfold DonatableRegion.sizeToAllocate
  have h1 : alignDown (min (granularity * n) (r.size - r.donated)) ≤ granularity * n :=
    le_trans (alignDown_le _) (min_le_left _ _)
  calc alignDown (min (granularity * n) (r.size - r.donated)) / granularity
      ≤ granularity * n / granularity := Nat.div_le_div_right h1
    _ = n := Nat.mul_div_cancel_left n granularity_pos

theorem dvd_sizeToAllocate (r : DonatableRegion) (n : Nat) : granularity ∣ r.sizeToAllocate n :=
  dvd_alignDown _

/-- A reservation books at least as much as it records. -/
theorem RegionOk.reserve {r : DonatableRegion} (h : RegionOk r) {n size : Nat}
    {ids : List AllocId} (hSize : size = r.sizeToAllocate n)
    (hIds : ids.length ≤ size / granularity) : RegionOk (r.reserve size ids) where
  aligned := by
    rw [hSize]
    exact Nat.dvd_add h.aligned (dvd_sizeToAllocate r n)
  covered := by
    have hCount := r.allocations.size_insertAll_le (ids.map fun x => (x, x))
    rw [List.length_map] at hCount
    have hDvd : size / granularity * granularity = size :=
      Nat.div_mul_cancel (hSize ▸ dvd_sizeToAllocate r n)
    show granularity * (r.allocations.insertAll _).size ≤ r.donated + size
    calc granularity * (r.allocations.insertAll (ids.map fun x => (x, x))).size
        ≤ granularity * (r.allocations.size + size / granularity) :=
          Nat.mul_le_mul_left _ (le_trans hCount (Nat.add_le_add_left hIds _))
      _ = granularity * r.allocations.size + size := by
          rw [Nat.mul_add, Nat.mul_comm granularity (size / granularity), hDvd]
      _ ≤ r.donated + size := Nat.add_le_add_right h.covered _
  within := by
    have hLe : size ≤ r.size - r.donated := by
      rw [hSize]
      exact le_trans (alignDown_le _) (min_le_right _ _)
    have := h.within
    show r.donated + size ≤ r.size
    omega
  own := fun k x hx => get?_insertAll_own ids h.own hx

/-- A confirmation keeps no more than was asked for. -/
theorem finalSize_le (r : DonatableRegion) (requestedSize grantedSize : Nat) :
    r.finalSize requestedSize grantedSize ≤ requestedSize := by
  have h1 : r.finalSize requestedSize grantedSize ≤
      DonatableRegion.usableGrant requestedSize grantedSize := Nat.sub_le _ _
  have h2 : DonatableRegion.usableGrant requestedSize grantedSize ≤
      min grantedSize requestedSize := Nat.sub_le _ _
  exact le_trans h1 (le_trans h2 (min_le_right _ _))

/-- A confirmation only strikes entries, whatever was granted. -/
theorem RegionOk.handleReservedAlloc {r : DonatableRegion} (h : RegionOk r)
    (ids : List AllocId) (requestedSize grantedSize : Nat) :
    RegionOk (r.handleReservedAlloc ids requestedSize grantedSize).1 where
  aligned := h.aligned
  covered := le_trans (Nat.mul_le_mul_left _ (OrdMap.size_filterKeys_le _ _)) h.covered
  within := h.within
  own := by
    intro k x hx
    simp only [DonatableRegion.handleReservedAlloc, OrdMap.get?_eraseAll] at hx
    split at hx
    · cases hx
    · exact h.own k x hx

/-- An entry in the books is worth at least one chunk of `donated`. -/
theorem RegionOk.granularity_le {r : DonatableRegion} (h : RegionOk r) {x y : AllocId}
    (hx : r.allocations.get? x = some y) : granularity ≤ r.donated := by
  have hPos : 1 ≤ r.allocations.size := by
    have := OrdMap.size_erase_of_some hx
    omega
  calc granularity = granularity * 1 := (Nat.mul_one _).symm
    _ ≤ granularity * r.allocations.size := Nat.mul_le_mul_left _ hPos
    _ ≤ r.donated := h.covered

/-- In a region in order, `return_capacity` is not told to return too much. -/
theorem RegionOk.not_tooMuch {r : DonatableRegion} (h : RegionOk r) (x : AllocId) :
    r.tooMuch x = false := by
  unfold DonatableRegion.tooMuch
  cases hx : r.allocations.get? x with
  | none => rfl
  | some y =>
    have := h.granularity_le hx
    simp only [Option.isSome_some, Bool.true_and, decide_eq_false_iff_not]
    omega

/-- Striking a returned allocation; a second return of the same one changes
nothing. -/
theorem RegionOk.bookkeep {r : DonatableRegion} (h : RegionOk r) (x : AllocId) :
    RegionOk (r.bookkeep x) := by
  unfold DonatableRegion.bookkeep
  cases hx : r.allocations.get? x with
  | none => exact h
  | some y =>
    have hLe := h.granularity_le hx
    have hSize := OrdMap.size_erase_of_some hx
    have hCovered := h.covered
    simp only [if_neg (Nat.not_lt.mpr hLe)]
    refine ⟨Nat.dvd_sub h.aligned (Nat.dvd_refl _), ?_, ?_, ?_⟩
    · show granularity * (r.allocations.erase x).size ≤ r.donated - granularity
      rw [← hSize, Nat.mul_add, Nat.mul_one] at hCovered
      exact Nat.le_sub_of_add_le hCovered
    · exact le_trans (Nat.sub_le _ _) h.within
    · intro k z hz
      rw [OrdMap.get?_erase] at hz
      split at hz
      · cases hz
      · exact h.own k z hz

-- ---------------------------------------------------------------------------
-- Every operation
-- ---------------------------------------------------------------------------

/-- The books of every region are in order. -/
def BooksOk (s : Shared) : Prop := ∀ d r, s.region? d = some r → RegionOk r

/-- Changing one region leaves the others in order. -/
theorem BooksOk.modifyRegion {s : Shared} (h : BooksOk s) {d : DonorAllocation}
    {f : DonatableRegion → DonatableRegion}
    (hf : ∀ r, s.region? d = some r → RegionOk { f r with path := r.path }) :
    BooksOk (s.modifyRegion d f) := by
  intro d' r' hr'
  rw [Shared.region?_modifyRegion] at hr'
  obtain ⟨r, hr, rfl⟩ := Option.map_eq_some_iff.mp hr'
  split
  · rename_i heq
    subst heq
    exact hf r hr
  · exact h d' r hr

/-- Only a reservation can put the books out of order. -/
theorem BooksOk.exec {s : Shared} (h : BooksOk s) {op : Op}
    (hReserve : ∀ d size ids, op = .reserveFromRegion d size ids →
      ∀ r, s.region? d = some r → RegionOk (r.reserve size ids)) : BooksOk (op.exec s) := by
  cases op with
  | reserveFromRegion d size ids =>
    refine h.modifyRegion fun r hr => ?_
    have hOk := hReserve d size ids rfl r hr
    exact ⟨hOk.aligned, hOk.covered, hOk.within, hOk.own⟩
  | handleReservedAlloc d ids requested granted =>
    simp only [Op.exec]
    split
    · exact h
    · refine BooksOk.modifyRegion h fun r hr => ?_
      have hOk := (h d r hr).handleReservedAlloc ids requested granted
      exact ⟨hOk.aligned, hOk.covered, hOk.within, hOk.own⟩
  | bookkeep d x =>
    have hMod : BooksOk (s.modifyRegion d (·.bookkeep x)) := by
      refine h.modifyRegion fun r hr => ?_
      have hOk := (h d r hr).bookkeep x
      exact ⟨hOk.aligned, hOk.covered, hOk.within, hOk.own⟩
    simp only [Op.exec]
    split
    · exact h
    · split <;> exact hMod
  | bookDebt d amount =>
    refine h.modifyRegion fun r hr => ?_
    have hOk := h d r hr
    exact ⟨hOk.aligned, hOk.covered, hOk.within, hOk.own⟩
  | commitState x =>
    simp only [Op.exec]
    split <;> exact h
  | tryClaim d x =>
    simp only [Op.exec]
    split <;> exact h
  | claimRelease c x call taken =>
    simp only [Op.exec]
    split <;> exact h
  | _ => exact h

-- ---------------------------------------------------------------------------
-- Indices of a grant in progress
-- ---------------------------------------------------------------------------

/-- The slices a grant in progress still has to take are there. -/
def AllocCall.InRange (a : AllocCall) : Prop :=
  match a.pc with
  | .donate _ size => size / granularity ≤ a.rest.length
  | .confirm _ size _ => size / granularity ≤ a.rest.length
  | .handBack _ n _ => n ≤ a.rest.length
  | .commit _ n _ => n ≤ a.rest.length
  | .commitState _ _ n _ => n ≤ a.rest.length
  | _ => True

/-- A grant slices its list where the list is long enough. -/
theorem AllocCall.InRange.step {s : Shared} {a a' : AllocCall} {op : Op} (h : a.InRange)
    (hStep : AllocCall.Step s a op a') : a'.InRange ∧ op ≠ .panic .sliceIndex := by
  cases hStep with
  | reserve _ _ _ _ hLe => exact ⟨hLe, nofun⟩
  | @reserveOut backed rest last v vms r hLt =>
    exact absurd (sizeToAllocate_div_le r rest.length) (Nat.not_le.mpr hLt)
  | donate => exact ⟨h, nofun⟩
  | owing _ _ hLe => exact ⟨le_trans hLe (List.length_take_le' _ _), nofun⟩
  | confirmed _ _ hLe _ => exact ⟨le_trans hLe (List.length_take_le' _ _), nofun⟩
  | @confirmOut backed rest last d size granted r hLt =>
    have hLen : (rest.take (size / granularity)).length = size / granularity :=
      List.length_take_of_le h
    have hFinal := Nat.div_le_div_right (c := granularity) (finalSize_le r size granted)
    rw [hLen] at hLt
    exact absurd hFinal (Nat.not_le.mpr hLt)
  | handBack => exact ⟨h, nofun⟩
  | commitOut => exact absurd h (Nat.not_succ_le_zero _)
  | setDonor _ => exact ⟨Nat.le_of_succ_le_succ h, nofun⟩
  | donorSet _ => exact ⟨trivial, by simp⟩
  | live _ => exact ⟨h, nofun⟩
  | dead _ => exact ⟨h, nofun⟩
  | regionGone _ => exact ⟨Nat.zero_le _, nofun⟩
  | giveBack hg => exact ⟨trivial, by cases hg <;> nofun⟩
  | _ => exact ⟨trivial, nofun⟩

def Task.InRange : Task → Prop
  | .request ⟨_, .allocate call _⟩ => call.InRange
  | _ => True

/-- A release panics nowhere. -/
theorem ReleaseCall.Step.op_ne_panic {tid : Tid} {s : Shared} {r r' : ReleaseCall} {op : Op}
    (h : ReleaseCall.Step tid s r op r') (p : Panic) : op ≠ .panic p := by
  cases h <;> nofun

/-- A return panics nowhere. -/
theorem ReturnCall.Step.op_ne_panic {tid : Tid} {s : Shared} {r r' : ReturnCall} {op : Op}
    (h : ReturnCall.Step tid s r op r') (p : Panic) : op ≠ .panic p := by
  cases h with
  | release _ hr => exact hr.op_ne_panic p
  | giveBack _ hg => cases hg <;> nofun
  | _ => nofun

/-- A request hands over to its grant what the grant will slice. -/
theorem Request.InRange.step {tid : Tid} {s : Shared} {q q' : Request} {op : Op}
    (h : (Task.request q).InRange) (hStep : Request.Step tid s q op q') :
    (Task.request q').InRange ∧ op ≠ .panic .sliceIndex := by
  cases hStep with
  | allocate hc => exact AllocCall.InRange.step h hc
  | reserved => exact ⟨trivial, nofun⟩
  | drop hr => exact ⟨trivial, hr.op_ne_panic _⟩
  | returnDead hr => exact ⟨trivial, hr.op_ne_panic _⟩
  | returnAll hr => exact ⟨trivial, hr.op_ne_panic _⟩
  | allLive =>
    refine ⟨?_, nofun⟩
    unfold Request.afterDead
    split <;> trivial
  | returnedDead _ =>
    refine ⟨?_, nofun⟩
    unfold Request.afterDead
    split <;> trivial
  | _ => exact ⟨trivial, nofun⟩

/-- No thread slices past the end of its list. -/
theorem Task.InRange.step {tid : Tid} {s : Shared} {t t' : Task} {op : Op} {started : List Task}
    (h : t.InRange) (hStep : Task.Step tid s t op t' started) :
    (t'.InRange ∧ ∀ u ∈ started, u.InRange) ∧ op ≠ .panic .sliceIndex := by
  cases hStep with
  | @events l l' op started hl =>
    refine ⟨⟨trivial, fun u hu => ?_⟩, by cases hl <;> nofun⟩
    obtain ⟨v, -, rfl⟩ := List.mem_map.mp hu
    trivial
  | detection hl =>
    refine ⟨⟨trivial, nofun⟩, ?_⟩
    cases hl with
    | consumerReturn hr => exact hr.op_ne_panic _
    | donorReturn hr => exact hr.op_ne_panic _
    | _ => nofun
  | request hq =>
    obtain ⟨h1, h2⟩ := Request.InRange.step h hq
    exact ⟨⟨h1, nofun⟩, h2⟩
  | revoke hv =>
    refine ⟨⟨trivial, nofun⟩, ?_⟩
    cases hv with
    | giveBack hr => exact hr.op_ne_panic _
    | _ => nofun

/-- The only thread that reserves is a grant looking at a region with room. -/
theorem Task.Step.reserves {tid : Tid} {s : Shared} {t t' : Task} {started : List Task}
    {d : DonorAllocation} {size : Nat} {ids : List AllocId}
    (h : Task.Step tid s t (.reserveFromRegion d size ids) t' started) :
    ∃ r n, s.region? d = some r ∧ size = r.sizeToAllocate n ∧
      ids.length ≤ size / granularity := by
  obtain ⟨c, call, call', rsvd, rfl, rfl, hc⟩ := h.grant rfl
  cases hc with
  | reserve _ hr _ hSize _ => exact ⟨_, _, hr, hSize, List.length_take_le _ _⟩
  | giveBack hg => cases hg

-- ---------------------------------------------------------------------------
-- Every run
-- ---------------------------------------------------------------------------

/-- What a run has shown of the books so far. -/
structure AccountingInv (s : System) : Prop where
  books : BooksOk s.shared
  inRange : ∀ (i : Nat) (t : Task), s.tasks[i]? = some t → t.InRange
  noSliceIndex : .panicked .sliceIndex ∉ s.shared.log
  notTooMuch : ∀ d, .returningTooMuch d ∉ s.shared.log

/-- Every operation keeps the regions in order. -/
theorem AccountingInv.move {s s' : System} {op : Op} (h : AccountingInv s)
    (hm : orchestrator.Move s op s') : AccountingInv s' := by
  have hTask : ∀ (j : Nat) (u : Task), s'.tasks[j]? = some u → u.InRange := by
    refine forall_tasks (J := fun _ _ t => t.InRange) hm h.inRange (fun i t t' started ht hs => ?_)
      (fun started hs j u hu => ?_) (fun _ _ _ hu => hu)
    · have hNext := ((h.inRange i t ht).step hs).1
      exact ⟨hNext.1, fun _ => hNext.2⟩
    · cases hs with
      | request => rw [List.mem_singleton.mp hu]; trivial
      | _ => cases hu
  have hOp : op ≠ .panic .sliceIndex := by
    rcases move_cases hm with ⟨i, t, t', started, ht, hs, -⟩ | ⟨started, hs, -⟩
    · exact ((h.inRange i t ht).step hs).2
    · cases hs <;> nofun
  have hReserve : ∀ d size ids, op = .reserveFromRegion d size ids →
      ∀ r, s.shared.region? d = some r → RegionOk (r.reserve size ids) := by
    rintro d size ids rfl r hr
    rcases move_cases hm with ⟨i, t, t', started, ht, hs, -⟩ | ⟨started, hs, -⟩
    · obtain ⟨r', n, hr', hSize, hIds⟩ := hs.reserves
      rw [hr] at hr'
      cases hr'
      exact (h.books d r hr).reserve hSize hIds
    · cases hs
  refine ⟨?_, hTask, ?_, ?_⟩
  · rw [hm.shared_eq]
    exact h.books.exec hReserve
  · rw [hm.shared_eq]
    intro hMem
    rcases mem_log_exec hMem with hEmit | hOld
    · cases hEmit
      exact hOp rfl
    · exact h.noSliceIndex hOld
  · intro d
    rw [hm.shared_eq]
    intro hMem
    rcases mem_log_exec hMem with hEmit | hOld
    · cases hEmit with
      | tooMuch hr hx =>
        rw [(h.books d _ hr).not_tooMuch] at hx
        cases hx
    · exact h.notTooMuch d hOld

/-- A region that is found is one of its donor's. -/
theorem region?_mem {s : Shared} {d : DonorAllocation} {r : DonatableRegion}
    (h : s.region? d = some r) : r ∈ (s.donor d.donorVm).donatableRegions :=
  List.mem_of_find?_eq_some h

theorem accountingInv_init {vm : VmId → Vm} {donor : VmId → DonorState}
    (hFresh : FreshDonors donor) : AccountingInv (initSystem vm donor) where
  books := by
    intro d r hr
    rw [hFresh d.donorVm r (region?_mem hr)]
    exact .new _ _
  inRange := by
    intro i t ht
    have hMem := List.mem_of_getElem? ht
    simp only [initSystem, List.mem_cons, List.not_mem_nil, or_false] at hMem
    rcases hMem with rfl | rfl <;> trivial
  noSliceIndex := List.not_mem_nil
  notTooMuch := fun _ => List.not_mem_nil

/-- The regions are in order in every reachable state. -/
theorem Reachable.accounting {s : System} (h : Reachable s) : AccountingInv s := by
  obtain ⟨vm, donor, hFresh, hRun⟩ := h
  exact hRun.invariant (fun _ _ _ hInv hm _ => hInv.move hm) (accountingInv_init hFresh)

/-- **Region accounting.** In every reachable state the books of every region
are in order, and no run ever indexed a slice out of range or reported a
region that returned more than it had donated. -/
theorem region_accounting {s : System} (h : Reachable s) :
    (∀ v, ∀ r ∈ (s.shared.donor v).donatableRegions,
      granularity ∣ r.donated ∧ granularity * r.allocations.size ≤ r.donated ∧
        r.donated ≤ r.size ∧ ∀ k x, r.allocations.get? k = some x → x = k) ∧
      .panicked .sliceIndex ∉ s.shared.log ∧
      ∀ d, .returningTooMuch d ∉ s.shared.log := by
  have hInv := h.accounting
  refine ⟨fun v r hr => ?_, hInv.noSliceIndex, hInv.notTooMuch⟩
  have hOk : RegionOk r := hInv.books ⟨v, r.path⟩ r (DonorState.findRegion_of_mem hr)
  exact ⟨hOk.aligned, hOk.covered, hOk.within, hOk.own⟩

-- ---------------------------------------------------------------------------
-- A small setting
-- ---------------------------------------------------------------------------

/-- VM 0 donates, VM 1 has a DCD of four chunks. -/
def demoVm : VmId → Vm := fun v => if v = 1 then ⟨1, some (4 * granularity)⟩ else ⟨v, none⟩

/-- VM 0 donates from one region of four chunks. -/
def demoDonor : VmId → DonorState := fun v =>
  if v = 0 then ⟨[.new (4 * granularity) 7], by simp⟩ else ⟨[], by simp⟩

theorem demoDonor_fresh : FreshDonors demoDonor := by
  intro v r hr
  unfold demoDonor at hr
  split at hr
  · rw [List.mem_singleton.mp hr]
    rfl
  · cases hr

abbrev demo : System := initSystem demoVm demoDonor

/-- Where a schedule leads from there. -/
def demoAfter (ls : List (Label Op Choice)) : System := (orchestrator.run demo ls).getD demo

/-- A schedule that can be run is a run. -/
theorem demo_steps {ls : List (Label Op Choice)} (h : (orchestrator.run demo ls).isSome = true) :
    orchestrator.Steps (fun _ _ => True) demo (demoAfter ls) :=
  Machine.steps_after h

/-- Where it leads is reachable. -/
theorem demo_reachable {ls : List (Label Op Choice)}
    (h : (orchestrator.run demo ls).isSome = true) : Reachable (demoAfter ls) :=
  ⟨demoVm, demoDonor, demoDonor_fresh, demo_steps h⟩

/-- A schedule whose every operation meets a condition is a run that does. -/
theorem demo_reachableBy {allow : System → Op → Prop} [∀ s op, Decidable (allow s op)]
    {ls : List (Label Op Choice)}
    (h : (orchestrator.runIf (fun s op => decide (allow s op)) demo ls).isSome = true) :
    ReachableBy allow (demoAfter ls) :=
  ⟨demoVm, demoDonor, demoDonor_fresh, Machine.steps_afterIf h⟩

/-- Both VMs appear, VM 1 asks for one chunk, VM 0 grants it and it is
committed. -/
def demoCommit : List (Label Op Choice) :=
  [.task 1 (.register 0), .task 1 (.register 1), .outside (.startRequest 1 granularity),
    -- round up, reserve, call allocate_eph_memory
    .task 2 .go, .task 2 .go, .task 2 .go,
    -- look for a donor, reserve from its region, donate, confirm, commit
    .task 2 .go, .task 2 .go, .task 2 (.granted (some granularity)), .task 2 .go,
    .task 2 .go, .task 2 .go]

/-- Both VMs appear, VM 1 asks for `n` chunks. -/
def demoAsk (n : Nat) : List (Label Op Choice) :=
  [.task 1 (.register 0), .task 1 (.register 1), .outside (.startRequest 1 (n * granularity))]

/-- They are reserved, and VM 0 is about to be asked for them. -/
def demoDonate (n : Nat) : List (Label Op Choice) :=
  demoAsk n ++ List.replicate 5 (.task 2 .go)

theorem demoCommit_runs : (orchestrator.run demo demoCommit).isSome = true := by decide +kernel

theorem region_accounting_committed :
    (∃ r, (demoAfter demoCommit).shared.region? ⟨0, 7⟩ = some r ∧ r.allocations.size = 1) ∧
    (∀ v, ∀ r ∈ ((demoAfter demoCommit).shared.donor v).donatableRegions,
      granularity ∣ r.donated ∧ granularity * r.allocations.size ≤ r.donated ∧
        r.donated ≤ r.size ∧ ∀ k x, r.allocations.get? k = some x → x = k) ∧
      .panicked .sliceIndex ∉ (demoAfter demoCommit).shared.log ∧
      ∀ d, .returningTooMuch d ∉ (demoAfter demoCommit).shared.log := by
  refine ⟨?_, region_accounting (demo_reachable demoCommit_runs)⟩
  have hSize : ((demoAfter demoCommit).shared.region? ⟨0, 7⟩).map
      (fun r => r.allocations.size) = some 1 := by decide +kernel
  exact Option.map_eq_some_iff.mp hSize

end EphMemory.Orchestrator
