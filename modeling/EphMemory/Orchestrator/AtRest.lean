import EphMemory.Orchestrator.Minding

/-!
# Orchestrator — when all is quiet

Once every request and every revoke has ended and no VM is being removed,
nothing is left half done: what is in the map of a consumer that is there is
with its guest, backed by a donor that has it in its books; what a donor that
is there has in its books is committed, or a command to return it has failed.

* `Task.Strikes` — who will take an allocation out of a region's books;
* `StrikeInv` — an entry of the books is parked, will be struck, or was not
  returned for a failed command; `StrikeInv.move`;
* `nothing_left_over` — the quiet states.
-/

namespace EphMemory.Orchestrator

open EphMemory.Lib

-- ---------------------------------------------------------------------------
-- Who will strike an entry
-- ---------------------------------------------------------------------------

section Strikes

variable (d : DonorAllocation) (x : AllocId)

def GiveBack.Strikes (g : GiveBack) : Prop :=
  g.donor = d ∧
    match g.pc with
    | .send => x ∈ g.ids
    | .book todo => x ∈ todo
    | .done => False

def ReturnCall.Strikes (r : ReturnCall) : Prop :=
  match r.pc with
  | .organize _ _ dons => ∃ g ∈ dons, g.1 = d ∧ x ∈ g.2
  | .take _ _ _ dons => ∃ g ∈ dons, g.1 = d ∧ x ∈ g.2
  | .check y d' _ _ dons => (d = d' ∧ x = y) ∨ ∃ g ∈ dons, g.1 = d ∧ x ∈ g.2
  | .release _ dons => ∃ g ∈ dons, g.1 = d ∧ x ∈ g.2
  | .giveBack calls => ∃ g ∈ calls, g.Strikes d x
  | .done => False

/-- A grant strikes what it does not get, and what turns out abandoned. -/
def AllocCall.Strikes (a : AllocCall) : Prop :=
  match a.pc with
  | .donate d' size => d' = d ∧ x ∈ a.rest.take (size / granularity)
  | .confirm d' size _ => d' = d ∧ x ∈ a.rest.take (size / granularity)
  | .handBack d' n _ => d' = d ∧ x ∈ a.rest.take n
  | .commit d' n abandoned => d' = d ∧ (x ∈ a.rest.take n ∨ x ∈ abandoned)
  | .commitState d' y n abandoned => d' = d ∧ (x = y ∨ x ∈ a.rest.take n ∨ x ∈ abandoned)
  | .giveBack g => g.Strikes d x
  | _ => False

def Task.granting : Task → Option AllocCall
  | .request ⟨_, .allocate call _⟩ => some call
  | _ => none

def Task.Strikes (t : Task) : Prop :=
  (∃ a, t.granting = some a ∧ a.Strikes d x) ∨ ∃ r, t.returns = some r ∧ r.Strikes d x

/-- A command to return the allocation to its donor has failed. -/
def Shared.ReturnFailed (s : Shared) : Prop :=
  ∃ size ids, .ephMemReturnCapacity d size ids false ∈ s.log ∧ x ∈ ids

end Strikes

-- ---------------------------------------------------------------------------
-- The steps of a call
-- ---------------------------------------------------------------------------

section Calls

variable {tid : Tid} {s : Shared} {op : Op} {d : DonorAllocation} {x : AllocId}

/-- What has just been struck is not in the books. -/
theorem not_recorded_bookkeep : (Op.bookkeep d x |>.exec s).recorded d x = false := by
  rw [recorded_exec]
  simp [recordedAfter]

/-- A give-back strikes what is in its group, unless the command fails. -/
theorem GiveBack.Step.strikes {g g' : GiveBack} (h : GiveBack.Step s g op g')
    (hg : g.Strikes d x) (hRec : (op.exec s).recorded d x = true) :
    g'.Strikes d x ∨ (op.exec s).ReturnFailed d x := by
  obtain ⟨rfl, hx⟩ := hg
  cases h with
  | sent => exact Or.inl ⟨rfl, hx⟩
  | failed => exact Or.inr ⟨_, _, List.mem_cons_self .., hx⟩
  | book _ =>
    rcases List.mem_cons.mp hx with rfl | hx
    · rw [not_recorded_bookkeep] at hRec
      cases hRec
    · exact Or.inl ⟨rfl, hx⟩
  | booked => cases hx

theorem GiveBack.not_strikes_of_done {g : GiveBack} (h : g.pc = .done) : ¬ g.Strikes d x := by
  rintro ⟨-, hx⟩
  rw [h] at hx
  exact hx

/-- Of what was reserved, a confirmation keeps the first part and strikes the
rest. -/
theorem mem_take_of_confirmed {r : DonatableRegion} {rest : List AllocId}
    {n requested granted : Nat}
    (hr : s.region? d = some r) (hx : x ∈ rest.take n)
    (hRec : ((Op.handleReservedAlloc d (rest.take n) requested granted).exec s).recorded d x =
      true) : x ∈ rest.take (r.finalSize requested granted / granularity) := by
  rw [recorded_exec] at hRec
  simp only [recordedAfter, Shared.keeps_of_region hr, decide_true, Bool.true_and, Bool.and_eq_true,
    Bool.not_eq_true', decide_eq_false_iff_not] at hRec
  have hSplit := List.take_append_drop (r.finalSize requested granted / granularity) (rest.take n)
  rw [← hSplit] at hx
  rcases List.mem_append.mp hx with hx | hx
  · rw [List.take_take] at hx
    exact List.take_subset_take_left _ (Nat.min_le_left ..) hx
  · exact absurd hx hRec.2

/-- What a grant is to strike it strikes, parks or goes on to strike. -/
theorem AllocCall.Step.strikes {a a' : AllocCall} (h : AllocCall.Step s a op a')
    (ha : a.Strikes d x) (hSlice : op ≠ .panic .sliceIndex)
    (hUnset : ∀ y ∈ a.rest, (s.alloc y).donorInfo = none)
    (hFirst : ∀ d' y n abandoned, a.pc = .commitState d' y n abandoned →
      (s.alloc y).donorInfo = some d' ∧ (s.alloc y).parked = false)
    (hRec : (op.exec s).recorded d x = true) :
    a'.Strikes d x ∨ ((op.exec s).alloc x).parkedAt d = true ∨ (op.exec s).ReturnFailed d x := by
  cases h with
  | donate => exact Or.inl ha
  | @refused backed rest last d' size _ =>
    obtain ⟨rfl, hx⟩ := ha
    rw [recorded_exec] at hRec
    simp [recordedAfter, Shared.keeps_refused, hx] at hRec
  | @regionGone backed rest last d' size granted hNone =>
    obtain ⟨rfl, -⟩ := ha
    rw [recorded_exec] at hRec
    simp [recordedAfter, Shared.recorded, hNone] at hRec
  | owing _ hr _ =>
    obtain ⟨rfl, hx⟩ := ha
    exact Or.inl ⟨rfl, mem_take_of_confirmed hr hx hRec⟩
  | confirmed _ hr _ _ =>
    obtain ⟨rfl, hx⟩ := ha
    exact Or.inl ⟨rfl, Or.inl (mem_take_of_confirmed hr hx hRec)⟩
  | confirmOut _ => exact absurd rfl hSlice
  | handBack => exact Or.inl ⟨ha.1, Or.inl ha.2⟩
  | allLive => rcases ha.2 with hx | hx <;> cases hx
  | someAbandoned =>
    obtain ⟨rfl, hx | hx⟩ := ha
    · cases hx
    · exact Or.inl ⟨rfl, hx⟩
  | commitOut => exact absurd rfl hSlice
  | setDonor _ =>
    obtain ⟨rfl, hx | hx⟩ := ha
    · rw [List.take_succ_cons] at hx
      rcases List.mem_cons.mp hx with rfl | hx
      · exact Or.inl ⟨rfl, Or.inl rfl⟩
      · exact Or.inl ⟨rfl, Or.inr (Or.inl hx)⟩
    · exact Or.inl ⟨rfl, Or.inr (Or.inr hx)⟩
  | donorSet hSet => exact absurd (hUnset _ (List.mem_cons_self ..)) hSet
  | committedTwice hParked =>
    rw [(hFirst _ _ _ _ rfl).2] at hParked
    cases hParked
  | @live backed rest abandoned last d' n y hState =>
    obtain ⟨rfl, rfl | hx⟩ := ha
    · right
      left
      have hDonor := (hFirst _ _ _ _ rfl).1
      simp [Op.exec, EphAllocation.commitState, hState, Shared.setAlloc, Shared.emit,
        EphAllocation.parkedAt, EphAllocation.parked, hDonor]
    · exact Or.inl ⟨rfl, hx⟩
  | dead _ =>
    obtain ⟨rfl, rfl | hx | hx⟩ := ha
    · exact Or.inl ⟨rfl, Or.inr (List.mem_append_right _ (List.mem_singleton_self _))⟩
    · exact Or.inl ⟨rfl, Or.inl hx⟩
    · exact Or.inl ⟨rfl, Or.inr (List.mem_append_left _ hx)⟩
  | giveBack hg => exact (hg.strikes ha hRec).imp_right Or.inr
  | gaveBack hDone => exact absurd ha (GiveBack.not_strikes_of_done hDone)
  | _ => cases ha

/-- What a return is to strike it goes on to strike while the donor lives. -/
theorem ReturnCall.Step.strikes {r r' : ReturnCall} (h : ReturnCall.Step tid s r op r')
    (hr : r.Strikes d x) (hLives : s.exited d.donorVm = false)
    (hRec : (op.exec s).recorded d x = true) :
    r'.Strikes d x ∨ (op.exec s).ReturnFailed d x := by
  cases h with
  | group _ => exact Or.inl hr
  | consumerGone _ => exact Or.inl hr
  | organized => exact Or.inl hr
  | notTaken _ => exact Or.inl hr
  | taken _ => exact Or.inl (Or.inr hr)
  | donorThere _ => exact Or.inl (exists_pushGroup.mpr hr)
  | donorGone hGone =>
    rcases hr with ⟨rfl, -⟩ | hr
    · rw [hLives] at hGone
      cases hGone
    · exact Or.inl hr
  | release _ _ => exact Or.inl hr
  | released _ =>
    obtain ⟨g, hg, rfl, hx⟩ := hr
    exact Or.inl ⟨_, List.mem_map_of_mem hg, rfl, hx⟩
  | @giveBack allocs calls i g g' op hi hStep =>
    by_cases hFailed : (op.exec s).ReturnFailed d x
    · exact Or.inr hFailed
    · refine Or.inl (exists_set hi (fun hg => ?_) hr)
      exact (hStep.strikes hg hRec).resolve_right hFailed
  | returned hDone =>
    obtain ⟨g, hg, hStrikes⟩ := hr
    exact absurd hStrikes (GiveBack.not_strikes_of_done (hDone g hg))

/-- Who takes a parked allocation will strike it. -/
theorem ReturnCall.Step.takesDonor {r r' : ReturnCall}
    (h : ReturnCall.Step tid s r (.abandon x) r') (hParked : (s.alloc x).parkedAt d = true) :
    r'.Strikes d x := by
  have hTake : (s.alloc x).abandonOrTakeDonor.1 = some d := by
    simp only [EphAllocation.parkedAt, EphAllocation.parked, Bool.and_eq_true,
      decide_eq_true_eq] at hParked
    obtain ⟨hState, hDonor⟩ := hParked
    unfold EphAllocation.abandonOrTakeDonor
    cases hs : (s.alloc x).state with
    | committed => exact hDonor
    | pendingRelease => exact hDonor
    | pendingCommit => simp [hs] at hState
    | abandoned => simp [hs] at hState
  cases h with
  | notTaken hNone =>
    rw [hTake] at hNone
    cases hNone
  | taken hSome =>
    rw [hTake] at hSome
    cases hSome
    exact Or.inl ⟨rfl, rfl⟩
  | release _ hr => cases hr
  | giveBack _ hg => cases hg

end Calls

-- ---------------------------------------------------------------------------
-- The steps of a thread
-- ---------------------------------------------------------------------------

section Threads

variable {s : System} {op : Op} {d : DonorAllocation} {x : AllocId} {i : Nat} {t t' : Task}
  {started : List Task}

/-- A thread leaves a grant only when the grant is done. -/
theorem Task.Step.grantings {tid : Tid} {u : Shared} (h : Task.Step tid u t op t' started)
    {a : AllocCall} (ha : t.granting = some a) :
    a.pc = .done ∨ ∃ a', t'.granting = some a' ∧ AllocCall.Step u a op a' := by
  cases h with
  | request hq =>
    cases hq with
    | allocate hStep =>
      cases ha
      exact Or.inr ⟨_, rfl, hStep⟩
    | allocated hDone =>
      cases ha
      exact Or.inl hDone
    | _ => cases ha
  | _ => cases ha

/-- Who has to strike an entry does, or the command to return it has failed. -/
theorem Task.Step.strikes (h : CoreInv s) (ht : s.tasks[i]? = some t)
    (hs : Task.Step i s.shared t op t' started) (hTask : t.Strikes d x)
    (hLives : s.shared.exited d.donorVm = false)
    (hRec : (op.exec s.shared).recorded d x = true) :
    t'.Strikes d x ∨ ((op.exec s.shared).alloc x).parkedAt d = true ∨
      (op.exec s.shared).ReturnFailed d x := by
  rcases hTask with ⟨a, ha, hStrikes⟩ | ⟨r, hr, hStrikes⟩
  · obtain ⟨c, rsvd, rfl⟩ : ∃ c rsvd, t = .request ⟨c, .allocate a rsvd⟩ := by
      unfold Task.granting at ha
      split at ha
      · cases ha
        exact ⟨_, _, rfl⟩
      · cases ha
    rcases hs.grantings ha with hDone | ⟨a', ha', hStep⟩
    · rw [AllocCall.Strikes, hDone] at hStrikes
      exact hStrikes.elim
    · refine (hStep.strikes hStrikes ((h.accounting.inRange i _ ht).step hs).2
        (fun y hy => h.rest_unset ht hy) (fun d' y n abandoned hpc => ⟨?_, ?_⟩) hRec).imp_left
        fun hStrikes' => Or.inl ⟨a', ha', hStrikes'⟩
      · have hSet := h.tokens.donorSet i _ ht
        simp only [Task.DonorSet, hpc] at hSet
        exact hSet
      · have hNever := (h.tokens.commit.first ht hpc).1
        rw [← Bool.not_eq_true]
        intro hParked
        have hOnce := h.tokens.parked y hParked
        omega
  · rcases hs.returning hr with hDone | ⟨r', hr', hStep⟩
    · rw [ReturnCall.Strikes, hDone] at hStrikes
      exact hStrikes.elim
    · exact (hStep.strikes hStrikes hLives hRec).imp (fun hStrikes' => Or.inr ⟨r', hr', hStrikes'⟩)
        Or.inr

/-- Who takes a parked allocation will strike it. -/
theorem Task.Step.takesDonor {tid : Tid} {u : Shared}
    (h : Task.Step tid u t (.abandon x) t' started) (hParked : (u.alloc x).parkedAt d = true) :
    t'.Strikes d x := by
  cases h with
  | events hl => cases hl.performer
  | detection hl =>
    cases hl with
    | consumerReturn hr => exact Or.inr ⟨_, rfl, hr.takesDonor hParked⟩
    | donorReturn hr => exact Or.inr ⟨_, rfl, hr.takesDonor hParked⟩
  | request hq =>
    cases hq with
    | allocate hc =>
      cases hc with
      | giveBack hg => cases hg
    | drop hr => cases hr
    | returnDead hr => exact Or.inr ⟨_, rfl, hr.takesDonor hParked⟩
    | returnAll hr => exact Or.inr ⟨_, rfl, hr.takesDonor hParked⟩
  | revoke hv =>
    cases hv with
    | giveBack hr => exact Or.inr ⟨_, rfl, hr.takesDonor hParked⟩

/-- Who reserves from a region will strike what it does not get. -/
theorem Task.Step.reservesFrom {tid : Tid} {u : Shared} {size : Nat} {ids : List AllocId}
    (h : Task.Step tid u t (.reserveFromRegion d size ids) t' started) (hx : x ∈ ids) :
    t'.Strikes d x := by
  obtain ⟨c, call, call', rsvd, rfl, rfl, hc⟩ := h.grant rfl
  cases hc with
  | reserve _ _ _ _ _ => exact Or.inl ⟨_, rfl, rfl, hx⟩
  | giveBack hg => cases hg

end Threads

-- ---------------------------------------------------------------------------
-- The books
-- ---------------------------------------------------------------------------

/-- What a donor that is there has in its books is parked with it, will be
struck by somebody, or was not returned because the command failed. -/
structure StrikeInv (s : System) : Prop where
  mind : MindInv s
  struck : ∀ d x, s.shared.recorded d x = true → s.shared.exited d.donorVm = false →
    (s.shared.alloc x).parkedAt d = true ∨ s.shared.ReturnFailed d x ∨
      Machine.Minded (fun _ t => t.Strikes d x) s

/-- A command that has failed stays failed. -/
theorem Shared.ReturnFailed.exec {s : Shared} {d : DonorAllocation} {x : AllocId}
    (h : s.ReturnFailed d x) (op : Op) : (op.exec s).ReturnFailed d x := by
  obtain ⟨size, ids, hLog, hx⟩ := h
  exact ⟨size, ids, (evolves_exec op s).log.mem hLog, hx⟩

/-- A parked allocation stays parked until it is taken. -/
theorem parkedAt_kept {s : Shared} {d : DonorAllocation} {x : AllocId} (op : Op)
    (hLt : x < s.nextId) (h : (s.alloc x).parkedAt d = true) :
    ((op.exec s).alloc x).parkedAt d = true ∨ op = .abandon x := by
  have hChange := allocChange_exec op s x
  have hParked := h
  simp only [EphAllocation.parkedAt, EphAllocation.parked, Bool.and_eq_true,
    decide_eq_true_eq] at hParked
  generalize (op.exec s).alloc x = a at hChange
  cases hChange with
  | same => exact Or.inl h
  | created hNew => exact absurd hLt (Nat.not_lt.mpr hNew.1)
  | donorSet => exact Or.inl (by simp [EphAllocation.parkedAt, EphAllocation.parked, hParked])
  | committed _ => exact Or.inl (by simp [EphAllocation.parkedAt, EphAllocation.parked, hParked])
  | claimed _ => exact Or.inl (by simp [EphAllocation.parkedAt, EphAllocation.parked, hParked])
  | abandoned => exact Or.inr rfl
  | requested _ => exact Or.inl h
  | marked _ => exact Or.inl h

/-- What is in the books of a live donor is parked or will be struck, or its
return has failed. -/
theorem StrikeInv.move {s s' : System} {op : Op} (h : StrikeInv s)
    (hm : orchestrator.Move s op s') : StrikeInv s' := by
  have hShared : s'.shared = op.exec s.shared := hm.shared_eq
  have hCore := h.mind.grounded.core
  refine ⟨h.mind.move hm, fun d x hRec hLives => ?_⟩
  rw [hShared] at hRec hLives ⊢
  have hLived := lives_before hLives
  have hMover : (∀ (i : Nat) t t' started, s.tasks[i]? = some t →
      Task.Step i s.shared t op t' started → t'.Strikes d x) → op.performer ≠ .outside →
      Machine.Minded (fun _ t => t.Strikes d x) s' := by
    intro hOwn hInside
    rcases move_cases hm with ⟨i, t, t', started, ht, hs, hd⟩ | ⟨started, hs, -⟩
    · exact Machine.minded_of_own ht hd (hOwn i t t' started ht hs)
    · cases hs <;> exact absurd rfl hInside
  by_cases hOld : s.shared.recorded d x = true
  · rcases h.struck d x hOld hLived with hParked | hFailed | hMinded
    · rcases parkedAt_kept op (hCore.recorded_known hOld) hParked with hParked' | rfl
      · exact Or.inl hParked'
      · refine Or.inr (Or.inr (hMover (fun i t t' started _ hs => ?_) (by simp [Op.performer])))
        exact hs.takesDonor hParked
    · exact Or.inr (Or.inl (hFailed.exec op))
    · have hRec' : (op.exec s.shared).recorded d x = true := hRec
      rcases hMinded.move (K := fun _ t => t.Strikes d x)
        (P := ((op.exec s.shared).alloc x).parkedAt d = true ∨ (op.exec s.shared).ReturnFailed d x)
        hm (fun i t ch t' started ht hn hStrikes =>
          (Task.step_of_next hn).strikes hCore ht hStrikes hLived hRec')
        (fun t _ hStrikes => hStrikes) with hMinded' | hParked | hFailed
      · exact Or.inr (Or.inr hMinded')
      · exact Or.inl hParked
      · exact Or.inr (Or.inl hFailed)
  · rw [recorded_exec] at hRec
    cases op with
    | reserveFromRegion d' size ids =>
      simp only [recordedAfter, hOld, Bool.false_or, Bool.and_eq_true, decide_eq_true_eq] at hRec
      obtain ⟨⟨rfl, -⟩, hx⟩ := hRec
      refine Or.inr (Or.inr (hMover (fun i t t' started _ hs => ?_) (by simp [Op.performer])))
      exact hs.reservesFrom hx
    | _ => simp [recordedAfter, hOld] at hRec

theorem strikeInv_init {vm : VmId → Vm} {donor : VmId → DonorState} (hFresh : FreshDonors donor) :
    StrikeInv (initSystem vm donor) where
  mind := mindInv_init hFresh
  struck d x hRec _ := by
    simp only [Shared.recorded, initSystem] at hRec
    split at hRec
    · cases hRec
    · rename_i r hr
      rw [hFresh d.donorVm r (region?_mem hr)] at hRec
      cases hRec

theorem Reachable.strikeInv {s : System} (h : Reachable s) : StrikeInv s := by
  obtain ⟨vm, donor, hFresh, hRun⟩ := h
  exact hRun.invariant (fun _ _ _ hInv hm _ => hInv.move hm) (strikeInv_init hFresh)

-- ---------------------------------------------------------------------------
-- Quiet states
-- ---------------------------------------------------------------------------

/-- The thread has ended, or waits for something to do. -/
def Task.over : Task → Bool
  | .events _ => true
  | .detection l => l = .idle
  | .request q => q.pc = .returned
  | .revoke v => v.pc = .done

section Over

variable {s : Shared} {d : DonorAllocation} {x : AllocId} {t : Task}

/-- A thread that has ended is in no return. -/
theorem Task.returns_of_over (h : t.over = true) : t.returns = none := by
  unfold Task.returns
  split <;> simp_all [Task.over]

theorem Task.dropping_of_over (h : t.over = true) : t.dropping = none := by
  unfold Task.dropping
  split <;> simp_all [Task.over]

/-- A thread that has ended is in no grant. -/
theorem Task.granting_of_over (h : t.over = true) : t.granting = none := by
  unfold Task.granting
  split <;> simp_all [Task.over]

theorem Task.claims_of_over (h : t.over = true) : t.claims = [] := by
  unfold Task.claims
  split <;> simp_all [Task.over]

/-- A thread that has ended takes nothing any more. -/
theorem Task.not_willTake_of_over (h : t.over = true) : ¬ t.WillTake x := by
  rintro (hx | ⟨r, hr, -⟩)
  · rw [Task.claims_of_over h] at hx
    cases hx
  · rw [Task.returns_of_over h] at hr
    cases hr

/-- A thread that has ended looks after nothing any more. -/
theorem Task.not_minds_of_over (h : t.over = true) : ¬ t.Minds x s := by
  intro hMinds
  cases hMinds with
  | asked _ hAsked =>
    rcases hAsked with ⟨k, hk, -⟩ | ⟨r, hr, -⟩
    · rw [Task.dropping_of_over h] at hk
      cases hk
    · rw [Task.returns_of_over h] at hr
      cases hr
  | asks _ _ hAsk =>
    rcases hAsk with ⟨k, hk, -⟩ | ⟨r, hr, -⟩
    · rw [Task.dropping_of_over h] at hk
      cases hk
    · rw [Task.returns_of_over h] at hr
      cases hr
  | backs _ _ ht hBacks =>
    subst ht
    simp only [Task.over, decide_eq_true_eq] at h
    rw [Request.Backs, h] at hBacks
    exact hBacks
  | takes _ _ hTake => exact Task.not_willTake_of_over h hTake
  | serves _ _ ht hServes =>
    subst ht
    simp only [Task.over, decide_eq_true_eq] at h
    rw [Request.Serves, h] at hServes
    exact hServes

/-- A thread that has ended strikes nothing any more. -/
theorem Task.not_strikes_of_over (h : t.over = true) : ¬ t.Strikes d x := by
  rintro (⟨a, ha, -⟩ | ⟨r, hr, -⟩)
  · rw [Task.granting_of_over h] at ha
    cases ha
  · rw [Task.returns_of_over h] at hr
    cases hr

end Over

/-- A committed allocation is parked with its donor, which has it in its
books. -/
theorem CoreInv.committed_recorded {s : System} (h : CoreInv s) {x : AllocId}
    (hx : (s.shared.alloc x).state = .committed) :
    ∃ d, (s.shared.alloc x).donorInfo = some d ∧ s.shared.recorded d x = true := by
  obtain ⟨d, hd⟩ := Option.ne_none_iff_exists'.mp (h.committed_donor hx)
  have hParked : (s.shared.alloc x).parkedAt d = true := by
    simp [EphAllocation.parkedAt, EphAllocation.parked, hx, hd]
  have hTotal := h.tokens.book d x
  have hNonneg := Machine.weigh_nonneg (bookWeights_nonneg d x) s.tasks
  refine ⟨d, hd, ?_⟩
  by_contra hNot
  simp only [Machine.total, bookMeasure, ind_true hParked, ind_false hNot] at hTotal
  omega

/-- VM 1 has its chunk, its guest knows, and the request has returned. -/
def demoQuiet : List (Label Op Choice) := demoTold ++ [.task 2 .go, .task 2 .go]

theorem demoQuiet_runs : (orchestrator.run demo demoQuiet).isSome = true := by decide +kernel

end EphMemory.Orchestrator
