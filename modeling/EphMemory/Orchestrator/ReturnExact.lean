import EphMemory.Orchestrator.Returning

/-!
# Orchestrator — a return is exact

What a whole call of `return_eph_memory_from_consumer` has done by the time it
returns depends on which allocations it was given and not on their order, and
a second call with the same ones finds nothing left to do.

* `Returned` — the state it leaves, `ReturnInv.returned`;
* `Returned.perm` — the order of the list does not matter;
* `Returned.again` — the second call changes nothing;
* `return_exact` — the call ends, and how.
-/

namespace EphMemory.Orchestrator

open EphMemory.Lib

/-- The state that a return of `allocs` that began in `s` leaves: the listed
allocations are abandoned and their areas free, and each region is sent its
share once and has it struck from its books. -/
structure Returned (s : Shared) (allocs : List AllocId) (t : Shared) : Prop where
  aside : Aside s t
  alloc : ∀ x, t.alloc x =
    if x ∈ allocs then
      { s.alloc x with
        state := .abandoned
        releaseRequested := (s.alloc x).releaseRequested || s.frees x }
    else s.alloc x
  areas : ∀ c o y, (t.allocatedAreas c).get? o = some y ↔
    (s.allocatedAreas c).get? o = some y ∧ ¬ (y ∈ allocs ∧ s.frees y = true)
  covered : ∀ d r, s.region? d = some r →
    (s.taken allocs d).length * granularity ≤ r.donated
  regions : ∀ v, (t.donor v).donatableRegions = (s.donor v).donatableRegions.map fun r =>
    r.returned (s.taken allocs ⟨v, r.path⟩)
  returns : ∀ d, t.returnsTo d =
    (if s.taken allocs d = [] then [] else [((s.taken allocs d).length * granularity, true)]) ++
      s.returnsTo d
  unlocked : ∀ c, t.consumerLock c = none

section Returned

variable {s t : Shared} {allocs allocs' : List AllocId}

/-- A call that is done has done all of it. -/
theorem ReturnInv.returned {r : ReturnCall} (h : ReturnInv s allocs t r)
    (hReady : Returnables s allocs) (hDone : r.pc = .done) : Returned s allocs t := by
  have hAside := h.aside
  rw [ReturnInv, hDone] at h
  obtain ⟨u, v, given, dons, calls, hOrg, hRel, hGive, hCons, hDons, hAll⟩ := h
  have hRet := hReady.returnable (hRel.donor.trans hOrg.donor) hDons
  have hDonor : v.donor = s.donor := hRel.donor.trans hOrg.donor
  have hFires := hOrg.fires hCons
  -- the call that handled a region has handled all that is taken from it
  have hCall : ∀ d, (calls.find? fun g => decide (g.donor = d)) = none ∧ s.taken allocs d = [] ∨
      ∃ g, (calls.find? fun g => decide (g.donor = d)) = some g ∧ g.pc = .done ∧
        g.ids = s.taken allocs d ∧ s.taken allocs d ≠ [] := by
    intro d
    cases hFind : calls.find? fun g => decide (g.donor = d) with
    | none =>
      refine Or.inl ⟨rfl, List.filter_eq_nil_iff.mpr fun x hx hKey => ?_⟩
      have hMem := hDons.all x hx d (of_decide_eq_true hKey)
      rw [← hGive.called, List.map_map] at hMem
      obtain ⟨g, hg, rfl⟩ := List.mem_map.mp hMem
      exact List.find?_eq_none.mp hFind g hg (decide_eq_true rfl)
    | some g =>
      have hMem := List.mem_of_find?_eq_some hFind
      have hd : g.donor = d := by simpa using List.find?_some hFind
      have hGroup : (g.donor, g.ids) ∈ dons := hGive.called ▸ List.mem_map_of_mem hMem
      obtain ⟨hIds, hSome⟩ := hDons.values _ hGroup
      subst hd
      have hTaken : g.ids = s.taken allocs g.donor := hIds
      exact Or.inr ⟨g, rfl, hAll g hMem, hTaken, hTaken ▸ hSome⟩
  refine ⟨hAside, fun x => ?_, fun c o y => ?_, fun d r hr => ?_, fun w => ?_, fun d => ?_, ?_⟩
  · have hx := hRel.alloc x
    rw [hOrg.requested, hFires, ← hGive.alloc] at hx
    rw [hx, hOrg.alloc x]
    by_cases hMem : x ∈ allocs
    · simp [hMem]
    · simp [hMem]
  · have hy := hRel.areas c o y
    rw [hOrg.areas, hFires, ← hGive.areas] at hy
    rw [hy, Bool.and_eq_false_iff, not_and_or, decide_eq_false_iff_not, Bool.not_eq_true]
  · by_cases hNone : s.taken allocs d = []
    · rw [hNone, List.length_nil, Nat.zero_mul]
      exact Nat.zero_le _
    · obtain ⟨x, hx⟩ := List.exists_mem_of_ne_nil _ hNone
      obtain ⟨hMem, hKey⟩ := List.mem_filter.mp hx
      obtain ⟨r', hr', -, hCovered⟩ := hRet.recorded _ (hDons.mem hMem (of_decide_eq_true hKey))
      have hSame : v.region? d = s.region? d := by rw [Shared.region?, hDonor, Shared.region?]
      cases (hSame.symm.trans hr').symm.trans hr
      exact hCovered
  · rw [hGive.regions, hDonor]
    refine List.map_congr_left fun r _ => ?_
    congr 1
    rw [bookedFrom]
    rcases hCall ⟨w, r.path⟩ with ⟨hNone, hTaken⟩ | ⟨g, hSome, hPc, hIds, -⟩
    · rw [hNone, hTaken]
    · simp only [hSome, ← hIds, GiveBack.booked, hPc]
  · rw [hGive.returns, hRel.returns, hOrg.returns, sentTo]
    rcases hCall d with ⟨hNone, hTaken⟩ | ⟨g, hSome, hPc, hIds, hne⟩
    · rw [hNone, if_pos hTaken]
    · rw [if_neg hne, hSome, ← hIds]
      simp only [GiveBack.sent, hPc]
  · intro c
    rw [hGive.unlocked]
    exact hRel.unlocked c

-- ---------------------------------------------------------------------------
-- In another order
-- ---------------------------------------------------------------------------

/-- The allocations, the areas and the donors' books are the same. -/
def SameBooks (s t : Shared) : Prop :=
  t.alloc = s.alloc ∧ t.allocatedAreas = s.allocatedAreas ∧ t.donor = s.donor

/-- A donor's state is its regions. -/
theorem DonorState.ext_regions {d d' : DonorState} (h : d.donatableRegions = d'.donatableRegions) :
    d = d' := by
  cases d
  cases d'
  cases h
  rfl

/-- The order of what is given back does not matter. -/
theorem DonatableRegion.returned_perm (r : DonatableRegion) {ids ids' : List AllocId}
    (h : ids.Perm ids') : r.returned ids = r.returned ids' := by
  have hErase : r.allocations.eraseAll ids = r.allocations.eraseAll ids' := by
    refine OrdMap.ext_get? fun k => ?_
    rw [OrdMap.get?_eraseAll, OrdMap.get?_eraseAll]
    simp only [h.mem_iff]
  rw [DonatableRegion.returned, DonatableRegion.returned, h.length_eq, DonatableRegion.strike,
    DonatableRegion.strike, hErase]

/-- Two calls with the same allocations leave the same books, whatever their order. -/
theorem Returned.perm {t' : Shared} (h : Returned s allocs t) (h' : Returned s allocs' t')
    (hPerm : allocs'.Perm allocs) : SameBooks t t' := by
  refine ⟨funext fun x => ?_, funext fun c => OrdMap.ext_get? fun o => Option.ext fun y => ?_,
    funext fun v => DonorState.ext_regions ?_⟩
  · rw [h.alloc, h'.alloc]
    simp only [hPerm.mem_iff]
  · rw [h.areas, h'.areas, hPerm.mem_iff]
  · rw [h.regions, h'.regions]
    exact List.map_congr_left fun r _ => r.returned_perm (hPerm.filter _)

/-- What a call needs to be exact does not depend on the order of its list. -/
theorem Returnables.perm (h : Returnables s allocs) (hPerm : allocs'.Perm allocs) :
    Returnables s allocs' where
  distinct := hPerm.nodup_iff.mpr h.distinct
  areas := h.areas
  books := h.books
  alone x hx := h.alone x (hPerm.mem_iff.mp hx)
  recorded x hx := h.recorded x (hPerm.mem_iff.mp hx)
  donorsFree := h.donorsFree
  consumersFree := h.consumersFree

-- ---------------------------------------------------------------------------
-- Once more
-- ---------------------------------------------------------------------------

/-- Striking what is there leaves a region's books right. -/
theorem RegionOk.strike {r : DonatableRegion} (h : RegionOk r) {ids : List AllocId}
    (hNodup : ids.Nodup) (hThere : ∀ x ∈ ids, ∃ y, r.allocations.get? x = some y) {n : Nat}
    (hn : n = granularity * ids.length) : RegionOk (r.strike n ids) where
  aligned := Nat.dvd_sub h.aligned (hn ▸ Nat.dvd_mul_right ..)
  covered := by
    have hSize := OrdMap.size_eraseAll hNodup hThere
    have hCovered := h.covered
    rw [← hSize, Nat.mul_add, ← hn] at hCovered
    exact Nat.le_sub_of_add_le hCovered
  within := le_trans (Nat.sub_le ..) h.within
  own k x hx := by
    rw [DonatableRegion.strike, OrdMap.get?_eraseAll] at hx
    split at hx
    · cases hx
    · exact h.own k x hx

/-- What is left of a region is what was not taken from it. -/
theorem Returned.region? (h : Returned s allocs t) (d : DonorAllocation) :
    t.region? d = (s.region? d).map fun r => r.returned (s.taken allocs d) :=
  region?_map (f := fun d r => r.returned (s.taken allocs d)) (fun _ r => r.returned_path _)
    h.regions d

/-- The books of all regions are right afterwards. -/
theorem Returned.books (h : Returned s allocs t) (hReady : Returnables s allocs) : BooksOk t := by
  intro d r hr
  rw [h.region?] at hr
  obtain ⟨r₀, hr₀, rfl⟩ := Option.map_eq_some_iff.mp hr
  refine (hReady.books d r₀ hr₀).strike (hReady.distinct.filter _) (fun x hx => ?_)
    (Nat.mul_comm ..)
  obtain ⟨hMem, hKey⟩ := List.mem_filter.mp hx
  have hRec := hReady.recorded x hMem d (donorKey_some (of_decide_eq_true hKey)).1
  rw [Shared.recorded, hr₀] at hRec
  exact OrdMap.contains_iff.mp hRec

/-- The call moves no allocation. -/
theorem Returned.offsetOf (h : Returned s allocs t) : t.offsetOf = s.offsetOf := by
  funext x
  rw [Shared.offsetOf, h.alloc, Shared.offsetOf]
  split <;> rfl

/-- The call does not change whose an allocation is. -/
theorem Returned.consumerVm (h : Returned s allocs t) (x : AllocId) :
    (t.alloc x).consumerVm = (s.alloc x).consumerVm := by
  rw [h.alloc]
  split <;> rfl

/-- A listed allocation has been abandoned: no donor is taken from it again. -/
theorem Returned.donorKey (h : Returned s allocs t) {x : AllocId} (hx : x ∈ allocs) :
    (t.alloc x).abandonOrTakeDonor.1 = none := by
  rw [h.alloc, if_pos hx]
  rfl

/-- Nor is its area freed again. -/
theorem Returned.frees (h : Returned s allocs t) {x : AllocId} (hx : x ∈ allocs) :
    t.frees x = false := by
  rw [Shared.frees, h.consumerVm, h.aside.exited, Bool.and_eq_false_iff]
  by_cases hGone : s.exited (s.alloc x).consumerVm = true
  · exact Or.inl (by rw [hGone]; rfl)
  · refine Or.inr (decide_eq_false ?_)
    rintro ⟨hAt, hNot⟩
    rw [h.offsetOf, h.areas] at hAt
    rw [h.alloc, if_pos hx] at hNot
    obtain ⟨hReq, hKept⟩ := Bool.or_eq_false_iff.mp hNot
    have hFrees : s.frees x = true := by
      rw [Shared.frees, Bool.eq_false_of_not_eq_true hGone, Bool.not_false, Bool.true_and]
      exact decide_eq_true ⟨hAt.1, hReq⟩
    rw [hFrees] at hKept
    cases hKept

/-- The same allocations can be returned again, and a second call finds nothing to take. -/
theorem Returned.returnables (h : Returned s allocs t) (hReady : Returnables s allocs) :
    Returnables t allocs where
  distinct := hReady.distinct
  areas c o x hx := by
    have hOld := hReady.areas c o x ((h.areas c o x).mp hx).1
    rw [h.aside.nextId, h.consumerVm, h.offsetOf, h.aside.vm]
    exact hOld
  books := h.books hReady
  alone x hx y hy := by
    rw [h.consumerVm, h.offsetOf] at hy
    exact hReady.alone x hx y ((h.areas _ _ y).mp hy).1
  recorded x hx d hd := by
    rw [h.donorKey hx] at hd
    cases hd
  donorsFree := by
    rw [h.aside.donorLock]
    exact hReady.donorsFree
  consumersFree := h.unlocked

/-- Nothing is left to return. -/
theorem Returned.again {u : Shared} (h : Returned s allocs t) (h' : Returned t allocs u) :
    SameBooks t u ∧ ∀ d, u.returnsTo d = t.returnsTo d := by
  have hTaken : ∀ d, t.taken allocs d = [] := by
    refine fun d => List.filter_eq_nil_iff.mpr fun x hx hKey => ?_
    have hTake := (donorKey_some (of_decide_eq_true hKey)).1
    rw [h.donorKey hx] at hTake
    cases hTake
  refine ⟨⟨funext fun x => ?_, funext fun c => OrdMap.ext_get? fun o => Option.ext fun y => ?_,
    funext fun v => DonorState.ext_regions ?_⟩, fun d => ?_⟩
  · rw [h'.alloc]
    by_cases hx : x ∈ allocs
    · rw [if_pos hx, h.frees hx, Bool.or_false, h.alloc, if_pos hx]
    · rw [if_neg hx]
  · rw [h'.areas]
    refine ⟨And.left, fun hy => ⟨hy, fun ⟨hMem, hFrees⟩ => ?_⟩⟩
    rw [h.frees hMem] at hFrees
    cases hFrees
  · rw [h'.regions]
    simp only [hTaken, DonatableRegion.returned_nil]
    exact List.map_id _
  · rw [h'.returns, hTaken, if_pos rfl, List.nil_append]

end Returned

-- ---------------------------------------------------------------------------
-- Every run
-- ---------------------------------------------------------------------------

/-- The runs of a call for `allocs` while nothing else runs and QEMU confirms
releases; the release commands may fail or time out. -/
abbrev ReturnRuns (tid : Tid) (s : Shared) (allocs : List AllocId) :
    Nat → Shared × ReturnCall → Prop :=
  Runs Op.exec (ReturnCall.Moves tid) ReturnCall.Env (s, .start allocs)

/-- A run has no more steps than there is to do at the start. -/
theorem ReturnRuns.bounded {tid : Tid} {s : Shared} {allocs : List AllocId} {n : Nat}
    {q : Shared × ReturnCall} (h : ReturnRuns tid s allocs n q) :
    n ≤ (ReturnCall.start allocs).left := by
  have hBound := Runs.bounded (I := fun _ _ => True) (m := fun _ => ReturnCall.left)
    (fun _ => trivial) (fun _ hMove => ?_) (fun _ _ => le_refl _) h
  · exact le_trans (Nat.le_add_right ..) hBound
  · obtain ⟨⟨ch, hNext⟩, -⟩ := hMove
    exact (ReturnCall.step_of_next hNext).left_lt

/-- Along a run the invariant holds, whatever the environment does in between. -/
theorem ReturnRuns.inv {tid : Tid} {s : Shared} {allocs : List AllocId} {n : Nat}
    {q : Shared × ReturnCall} (h : ReturnRuns tid s allocs n q) (hReady : Returnables s allocs) :
    ReturnInv s allocs q.1 q.2 := by
  refine h.invariant (I := ReturnInv s allocs) (fun hInv hMove => ?_) (fun hInv hEnv => ?_) ?_
  · obtain ⟨⟨ch, hNext⟩, hOk⟩ := hMove
    exact hInv.step hReady (ReturnCall.step_of_next hNext) hOk
  · exact hInv.env hEnv
  · exact .init s allocs

/-- What a reachable state has to offer for a call to be exact. -/
theorem Reachable.returnables {c : System} (h : Reachable c) {allocs : List AllocId}
    (hDistinct : allocs.Nodup) (hDonors : ∀ v, c.shared.donorLock v = none)
    (hConsumers : ∀ v, c.shared.consumerLock v = none)
    (hAlone : ∀ x ∈ allocs, ∀ y, (c.shared.allocatedAreas (c.shared.alloc x).consumerVm).get?
      (c.shared.offsetOf x) = some y → y = x)
    (hRecorded : ∀ x ∈ allocs, (c.shared.alloc x).state = .committed ∨
      (c.shared.alloc x).state = .pendingRelease →
        ∀ d, (c.shared.alloc x).donorInfo = some d → c.shared.recorded d x = true) :
    Returnables c.shared allocs := by
  obtain ⟨vm, donor, hFresh, hSteps⟩ := h
  have hCore := coreInv_steps hFresh hSteps
  refine ⟨hDistinct, hCore.areas, hCore.accounting.books, hAlone, fun x hx d hd => ?_, hDonors,
    hConsumers⟩
  refine hRecorded x hx ?_ d (donorInfo_of_taken hd)
  unfold EphAllocation.abandonOrTakeDonor at hd
  split at hd
  · exact Or.inl ‹_›
  · exact Or.inr ‹_›
  · cases hd
  · cases hd

/-- **Returning is exact, idempotent and order-independent.** For every list
of distinct allocations in a reachable state in which no other allocation lies
at the offset of a listed one and each listed one that a donor has committed
is in that donor's books: with nothing else running and every return command
succeeding, `return_eph_memory_from_consumer` ends; it leaves the state of
`Returned`, whatever the order of the list; and a second call with the same
list sends no donor anything and changes nothing. -/
theorem return_exact {c : System} (hReach : Reachable c) {allocs : List AllocId}
    (hDistinct : allocs.Nodup) (hDonors : ∀ v, c.shared.donorLock v = none)
    (hConsumers : ∀ v, c.shared.consumerLock v = none)
    (hAlone : ∀ x ∈ allocs, ∀ y, (c.shared.allocatedAreas (c.shared.alloc x).consumerVm).get?
      (c.shared.offsetOf x) = some y → y = x)
    (hRecorded : ∀ x ∈ allocs, (c.shared.alloc x).state = .committed ∨
      (c.shared.alloc x).state = .pendingRelease →
        ∀ d, (c.shared.alloc x).donorInfo = some d → c.shared.recorded d x = true) (tid : Tid) :
    (∃ bound, ∀ n q, ReturnRuns tid c.shared allocs n q → n ≤ bound) ∧
      ∀ n t r, ReturnRuns tid c.shared allocs n (t, r) →
        (r.pc ≠ .done → ∃ op r', ReturnCall.Moves tid t r op r') ∧
        (r.pc = .done → Returned c.shared allocs t ∧
          (∀ allocs' tid' n' t' r', allocs'.Perm allocs →
            ReturnRuns tid' c.shared allocs' n' (t', r') → r'.pc = .done → SameBooks t t') ∧
          ∀ tid' n' u r', ReturnRuns tid' t allocs n' (u, r') →
            (r'.pc ≠ .done → ∃ op r'', ReturnCall.Moves tid' u r' op r'') ∧
            (r'.pc = .done → SameBooks t u ∧ ∀ d, u.returnsTo d = t.returnsTo d)) := by
  have hReady := hReach.returnables hDistinct hDonors hConsumers hAlone hRecorded
  refine ⟨⟨_, fun n q hRun => hRun.bounded⟩, fun n t r hRun => ?_⟩
  refine ⟨(hRun.inv hReady).moves hReady tid, fun hDone => ?_⟩
  have hEnd := (hRun.inv hReady).returned hReady hDone
  refine ⟨hEnd, fun allocs' tid' n' t' r' hPerm hRun' hDone' => ?_, fun tid' n' u r' hRun' => ?_⟩
  · have hReady' := hReady.perm hPerm
    exact hEnd.perm ((hRun'.inv hReady').returned hReady' hDone') hPerm
  · have hReady' := hEnd.returnables hReady
    refine ⟨(hRun'.inv hReady').moves hReady' tid', fun hDone' => ?_⟩
    exact hEnd.again ((hRun'.inv hReady').returned hReady' hDone')

/-- VM 0 grants VM 1 two chunks, which are committed. -/
def demoCommitTwo : List (Label Op Choice) :=
  demoDonate 2 ++ [.task 2 (.granted (some (2 * granularity)))] ++ List.replicate 5 (.task 2 .go)

theorem demoCommitTwo_runs : (orchestrator.run demo demoCommitTwo).isSome = true := by
  decide +kernel

/-- VM 0 is sent both of them back at once, in either order. -/
theorem return_exact_two :
    (∃ bound, ∀ n q, ReturnRuns 9 (demoAfter demoCommitTwo).shared [2, 1] n q → n ≤ bound) ∧
      ∀ n t r, ReturnRuns 9 (demoAfter demoCommitTwo).shared [2, 1] n (t, r) → r.pc = .done →
        t.returnsTo ⟨0, 7⟩ = [(2 * granularity, true)] ∧
        ∀ n' t' r', ReturnRuns 9 (demoAfter demoCommitTwo).shared [1, 2] n' (t', r') →
          r'.pc = .done → SameBooks t t' := by
  have hAt : ∀ x ∈ ([2, 1] : List AllocId), ((demoAfter demoCommitTwo).shared.allocatedAreas
      ((demoAfter demoCommitTwo).shared.alloc x).consumerVm).get?
        ((demoAfter demoCommitTwo).shared.offsetOf x) = some x := by decide +kernel
  have hDonor : ∀ x ∈ ([2, 1] : List AllocId),
      ((demoAfter demoCommitTwo).shared.alloc x).donorInfo = some ⟨0, 7⟩ ∧
        (demoAfter demoCommitTwo).shared.recorded ⟨0, 7⟩ x = true := by decide +kernel
  have hTaken : (demoAfter demoCommitTwo).shared.taken [2, 1] ⟨0, 7⟩ = [2, 1] := by
    decide +kernel
  have hBefore : (demoAfter demoCommitTwo).shared.returnsTo ⟨0, 7⟩ = [] := by decide +kernel
  obtain ⟨hBound, hRuns⟩ := return_exact (demo_reachable demoCommitTwo_runs) (by decide)
    (fun _ => rfl) (fun _ => rfl) (fun x hx y hy => Option.some.inj (hy.symm.trans (hAt x hx)))
    (fun x hx _ d hd => by
      obtain ⟨hInfo, hRec⟩ := hDonor x hx
      cases hInfo.symm.trans hd
      exact hRec) 9
  refine ⟨hBound, fun n t r hRun hDone => ?_⟩
  obtain ⟨hEnd, hPerm, -⟩ := (hRuns n t r hRun).2 hDone
  refine ⟨?_, fun n' t' r' => hPerm [1, 2] 9 n' t' r' (List.Perm.swap ..)⟩
  have hReturns := hEnd.returns ⟨0, 7⟩
  rw [hTaken, hBefore] at hReturns
  exact hReturns

end EphMemory.Orchestrator
