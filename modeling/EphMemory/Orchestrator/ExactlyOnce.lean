import EphMemory.Orchestrator.Known

/-!
# Orchestrator — exactly-once teardown

Revoke, consumer exit, donor exit and a request's own error path may all tear
down the same allocation. `Settled` says, state by state, what the calls on an
allocation have answered so far; the answers decide who returns the memory.

* `settled_move` — every operation keeps it;
* `releaseLaw` — the winner of `release_requested` is the only one to send a
  release;
* `GrantedTo` — the donor an allocation names granted the memory behind it;
* `exactly_once_teardown` — the four together, over every run.
-/

namespace EphMemory.Orchestrator

open EphMemory.Lib

-- ---------------------------------------------------------------------------
-- The answers on record
-- ---------------------------------------------------------------------------

def Output.isAbandon (x : AllocId) : Output → Bool
  | .abandoned y _ => decide (y = x)
  | _ => false

def Output.isTake (x : AllocId) : Output → Bool
  | .abandoned y (some _) => decide (y = x)
  | _ => false

def Output.isRefusal (x : AllocId) : Output → Bool
  | .committed y false => decide (y = x)
  | _ => false

def Output.isClaim (x : AllocId) : Output → Bool
  | .claimed _ y => decide (y = x)
  | _ => false

/-- The calls of `abandon_or_take_donor` on `x`. -/
def abandons (x : AllocId) (log : List Output) : Int := tally (Output.isAbandon x) log

/-- Those that answered `Some`. -/
def takes (x : AllocId) (log : List Output) : Int := tally (Output.isTake x) log

/-- The calls of `commit_allocation` on `x` that answered `false`. -/
def refusals (x : AllocId) (log : List Output) : Int := tally (Output.isRefusal x) log

/-- The calls of `try_claim_for_revoke` on `x` that succeeded. -/
def claims (x : AllocId) (log : List Output) : Int := tally (Output.isClaim x) log

/-- To take an allocation is to abandon it. -/
theorem takes_le_abandons (x : AllocId) (log : List Output) : takes x log ≤ abandons x log := by
  refine tally_mono log fun o ho => ?_
  unfold Output.isTake at ho
  split at ho
  · exact ho
  · cases ho

/-- A refused commit is a call of `commit_allocation` all the same. -/
theorem refusals_le_commits (x : AllocId) (log : List Output) :
    refusals x log ≤ commits x log := by
  refine tally_mono log fun o ho => ?_
  unfold Output.isRefusal at ho
  split at ho
  · exact ho
  · cases ho

/-- What the calls on `x` have answered while its state is `state`. -/
def Settled (x : AllocId) (log : List Output) : AllocState → Prop
  | .pendingCommit => commits x log = 0 ∧ abandons x log = 0 ∧ claims x log = 0
  | .committed =>
    1 ≤ commits x log ∧ refusals x log = 0 ∧ abandons x log = 0 ∧ claims x log = 0
  | .pendingRelease =>
    1 ≤ commits x log ∧ refusals x log = 0 ∧ abandons x log = 0 ∧ claims x log = 1
  | .abandoned =>
    1 ≤ abandons x log ∧ claims x log ≤ 1 ∧ takes x log + refusals x log = commits x log

/-- Only an operation about `x` writes an answer of `x`. -/
theorem tally_other {x : AllocId} {p : Output → Bool} {op : Op} {s : Shared}
    (hOp : op.target ≠ some x)
    (hp : ∀ o, p o = true → o.isCommit x = true ∨ o.isAbandon x = true ∨ o.isClaim x = true) :
    tally p (op.outputs s) = 0 := by
  refine tally_outputs_eq_zero fun o ho => ?_
  by_contra hNot
  rw [Bool.not_eq_false] at hNot
  have hAny := hp o hNot
  cases ho with
  | @committed y live a _ =>
    have hne : y ≠ x := fun heq => hOp (by rw [heq]; rfl)
    simp [Output.isCommit, Output.isAbandon, Output.isClaim, hne] at hAny
  | @abandoned y =>
    have hne : y ≠ x := fun heq => hOp (by rw [heq]; rfl)
    simp [Output.isCommit, Output.isAbandon, Output.isClaim, hne] at hAny
  | @claimed d y _ =>
    have hne : y ≠ x := fun heq => hOp (by rw [heq]; rfl)
    simp [Output.isCommit, Output.isAbandon, Output.isClaim, hne] at hAny
  | _ => simp [Output.isCommit, Output.isAbandon, Output.isClaim] at hAny

/-- The answers of an operation that is not about `x`. -/
theorem answers_other {x : AllocId} {op : Op} {s : Shared} (hOp : op.target ≠ some x) :
    commits x (op.outputs s) = 0 ∧ abandons x (op.outputs s) = 0 ∧
      claims x (op.outputs s) = 0 ∧ takes x (op.outputs s) = 0 ∧
        refusals x (op.outputs s) = 0 := by
  have hCommit : commits x (op.outputs s) = 0 := tally_other hOp fun o ho => Or.inl ho
  have hAbandon : abandons x (op.outputs s) = 0 :=
    tally_other hOp fun o ho => Or.inr (Or.inl ho)
  have hTake := takes_le_abandons x (op.outputs s)
  have hRefuse := refusals_le_commits x (op.outputs s)
  have hTake' : 0 ≤ takes x (op.outputs s) := tally_nonneg _ _
  have hRefuse' : 0 ≤ refusals x (op.outputs s) := tally_nonneg _ _
  exact ⟨hCommit, hAbandon, tally_other hOp fun o ho => Or.inr (Or.inr ho), by omega, by omega⟩

/-- An operation that records nothing of `x` leaves its account as it is. -/
theorem Settled.of_same {x : AllocId} {op : Op} {s : Shared} {state : AllocState}
    (h : Settled x s.log state) (hZero : commits x (op.outputs s) = 0 ∧
      abandons x (op.outputs s) = 0 ∧ claims x (op.outputs s) = 0 ∧ takes x (op.outputs s) = 0 ∧
        refusals x (op.outputs s) = 0) : Settled x (op.outputs s ++ s.log) state := by
  obtain ⟨h1, h2, h3, h4, h5⟩ := hZero
  have e1 : commits x (op.outputs s ++ s.log) = commits x s.log := by
    rw [commits_append, h1, Int.zero_add]
  have e2 : abandons x (op.outputs s ++ s.log) = abandons x s.log := by
    rw [abandons, tally_append, ← abandons, h2, Int.zero_add]
    rfl
  have e3 : claims x (op.outputs s ++ s.log) = claims x s.log := by
    rw [claims, tally_append, ← claims, h3, Int.zero_add]
    rfl
  have e4 : takes x (op.outputs s ++ s.log) = takes x s.log := by
    rw [takes, tally_append, ← takes, h4, Int.zero_add]
    rfl
  have e5 : refusals x (op.outputs s ++ s.log) = refusals x s.log := by
    rw [refusals, tally_append, ← refusals, h5, Int.zero_add]
    rfl
  cases state <;> simp only [Settled, e1, e2, e3, e4, e5] at h ⊢ <;> exact h

-- ---------------------------------------------------------------------------
-- The three operations
-- ---------------------------------------------------------------------------

section Answers

variable {x : AllocId} {log : List Output}

/-- The commit of an allocation nobody abandoned leaves it to be taken. -/
theorem Settled.commit_live (h : Settled x log .pendingCommit) :
    Settled x (.committed x true :: log) .committed := by
  obtain ⟨h1, h2, h3⟩ := h
  have hRefuse := refusals_le_commits x log
  have hRefuse' : 0 ≤ refusals x log := tally_nonneg _ _
  simp only [Settled, commits, refusals, abandons, claims, tally_cons, Output.isCommit,
    Output.isRefusal, Output.isAbandon, Output.isClaim, decide_true, if_true,
    Bool.false_eq_true, if_false, Int.add_zero] at *
  omega

/-- The commit of an abandoned one is refused, which settles it. -/
theorem Settled.commit_dead (h : Settled x log .abandoned) :
    Settled x (.committed x false :: log) .abandoned := by
  obtain ⟨h1, h2, h3⟩ := h
  simp only [Settled, commits, refusals, abandons, claims, takes, tally_cons, Output.isCommit,
    Output.isRefusal, Output.isAbandon, Output.isClaim, Output.isTake, decide_true, if_true,
    Bool.false_eq_true, if_false, Int.add_zero] at *
  omega

/-- A revoke that claims a committed allocation has not taken it yet. -/
theorem Settled.claim {d : DonorAllocation} (h : Settled x log .committed) :
    Settled x (.claimed d x :: log) .pendingRelease := by
  obtain ⟨h1, h2, h3, h4⟩ := h
  simp only [Settled, commits, refusals, abandons, claims, tally_cons, Output.isCommit,
    Output.isRefusal, Output.isAbandon, Output.isClaim, decide_true, if_true,
    Bool.false_eq_true, if_false, Int.add_zero] at *
  omega

/-- An allocation that is abandoned before its commit is refused later. -/
theorem Settled.abandon_early (h : Settled x log .pendingCommit) :
    Settled x (.abandoned x none :: log) .abandoned := by
  obtain ⟨h1, h2, h3⟩ := h
  have hTake := takes_le_abandons x log
  have hTake' : 0 ≤ takes x log := tally_nonneg _ _
  have hRefuse := refusals_le_commits x log
  have hRefuse' : 0 ≤ refusals x log := tally_nonneg _ _
  simp only [Settled, commits, refusals, abandons, claims, takes, tally_cons, Output.isCommit,
    Output.isRefusal, Output.isAbandon, Output.isClaim, Output.isTake, decide_true, if_true,
    Bool.false_eq_true, if_false, Int.add_zero] at *
  omega

/-- Whoever abandons it again gets no donor. -/
theorem Settled.abandon_again (h : Settled x log .abandoned) :
    Settled x (.abandoned x none :: log) .abandoned := by
  obtain ⟨h1, h2, h3⟩ := h
  simp only [Settled, commits, refusals, abandons, claims, takes, tally_cons, Output.isCommit,
    Output.isRefusal, Output.isAbandon, Output.isClaim, Output.isTake, decide_true, if_true,
    Bool.false_eq_true, if_false, Int.add_zero] at *
  omega

/-- Whoever abandons it after its commit takes its donor, and is the only one to. -/
theorem Settled.take {d : DonorAllocation} {state : AllocState}
    (hState : state = .committed ∨ state = .pendingRelease) (hOnce : commits x log ≤ 1)
    (h : Settled x log state) : Settled x (.abandoned x (some d) :: log) .abandoned := by
  have hTake := takes_le_abandons x log
  have hTake' : 0 ≤ takes x log := tally_nonneg _ _
  rcases hState with rfl | rfl
  all_goals
    obtain ⟨h1, h2, h3, h4⟩ := h
    simp only [Settled, commits, refusals, abandons, claims, takes, tally_cons, Output.isCommit,
      Output.isRefusal, Output.isAbandon, Output.isClaim, Output.isTake, decide_true, if_true,
      Bool.false_eq_true, if_false, Int.add_zero] at *
    omega

end Answers

/-- A commit finds the allocation uncommitted. -/
theorem CoreInv.commits_zero {s s' : System} {x : AllocId} (h : CoreInv s)
    (hm : orchestrator.Move s (.commitState x) s') : commits x s.shared.log = 0 := by
  rcases move_cases hm with ⟨i, t, t', started, ht, hs, -⟩ | ⟨started, hs, -⟩
  · obtain ⟨v, call, l, d, n, abandoned, rfl, hpc⟩ := hs.commitsState
    exact (h.tokens.commit.first ht hpc).1
  · cases hs

/-- **One operation.** Whatever it does to `x`, the log goes on to account for
the state of `x`. -/
theorem settled_move {s s' : System} {op : Op} (hCore : CoreInv s)
    (hm : orchestrator.Move s op s') {x : AllocId}
    (h : Settled x s.shared.log (s.shared.alloc x).state) :
    Settled x (op.exec s.shared).log ((op.exec s.shared).alloc x).state := by
  have hOnce : commits x s.shared.log ≤ 1 :=
    le_trans (hCore.tokens.commit.commits_le x) (ind_le_one _)
  rw [log_exec]
  by_cases hTarget : op.target = some x
  · cases op with
    | setDonorInfo y d =>
      cases hTarget
      have hState : (((Op.setDonorInfo x d).exec s.shared).alloc x).state =
          (s.shared.alloc x).state := by
        simp [Op.exec, Shared.setAlloc]
      rw [hState]
      exact h
    | commitState y =>
      cases hTarget
      have hZero := hCore.commits_zero hm
      cases hs : (s.shared.alloc x).state with
      | pendingCommit =>
        rw [hs] at h
        simpa [Op.exec, Op.outputs, EphAllocation.commitState, hs, Shared.emit, Shared.setAlloc]
          using h.commit_live
      | abandoned =>
        rw [hs] at h
        simpa [Op.exec, Op.outputs, EphAllocation.commitState, hs, Shared.emit, Shared.setAlloc]
          using h.commit_dead
      | committed =>
        rw [hs] at h
        have hOne := h.1
        omega
      | pendingRelease =>
        rw [hs] at h
        have hOne := h.1
        omega
    | tryClaim d y =>
      cases hTarget
      by_cases hs : (s.shared.alloc x).state = .committed
      · rw [hs] at h
        simpa [Op.exec, Op.outputs, EphAllocation.tryClaimForRevoke, hs, Shared.emit,
          Shared.setAlloc] using h.claim
      · simpa [Op.exec, Op.outputs, EphAllocation.tryClaimForRevoke, hs] using h
    | abandon y =>
      cases hTarget
      have hTaken : (s.shared.alloc x).parked = true →
          ∃ d, (s.shared.alloc x).donorInfo = some d := fun hp =>
        Option.ne_none_iff_exists'.mp (hCore.tokens.parked_donorInfo hp)
      cases hs : (s.shared.alloc x).state with
      | pendingCommit =>
        rw [hs] at h
        simpa [Op.exec, Op.outputs, EphAllocation.abandonOrTakeDonor, hs, Shared.emit,
          Shared.setAlloc] using h.abandon_early
      | abandoned =>
        rw [hs] at h
        simpa [Op.exec, Op.outputs, EphAllocation.abandonOrTakeDonor, hs, Shared.emit,
          Shared.setAlloc] using h.abandon_again
      | committed =>
        obtain ⟨d, hd⟩ := hTaken (by simp [EphAllocation.parked, hs])
        rw [hs] at h
        simpa [Op.exec, Op.outputs, EphAllocation.abandonOrTakeDonor, hs, hd, Shared.emit,
          Shared.setAlloc] using h.take (d := d) (Or.inl rfl) hOnce
      | pendingRelease =>
        obtain ⟨d, hd⟩ := hTaken (by simp [EphAllocation.parked, hs])
        rw [hs] at h
        simpa [Op.exec, Op.outputs, EphAllocation.abandonOrTakeDonor, hs, hd, Shared.emit,
          Shared.setAlloc] using h.take (d := d) (Or.inr rfl) hOnce
    | _ => cases hTarget
  · have hZero := answers_other (s := s.shared) hTarget
    have hChange := allocChange_exec op s.shared x
    generalize (op.exec s.shared).alloc x = a at hChange ⊢
    cases hChange with
    | same _ _ _ _ _ => exact h.of_same hZero
    | created hNew =>
      -- nobody knew of the allocation before
      have hOld : ¬ x < s.shared.nextId := Nat.not_lt.mpr hNew.1
      rw [hCore.untouched x hOld] at h
      exact h.of_same hZero
    | requested _ => exact h.of_same hZero
    | marked _ => exact h.of_same hZero
    | _ => exact absurd rfl hTarget

-- ---------------------------------------------------------------------------
-- One release command
-- ---------------------------------------------------------------------------

noncomputable section

def Output.releases (x : AllocId) : Output → Int
  | .cxlReleaseDynamicCapacity _ _ xs _ => cnt x xs
  | _ => 0

/-- How often a `cxl-release-dynamic-capacity` on record lists `x`. -/
def releases (x : AllocId) (log : List Output) : Int := Machine.weigh (Output.releases x) log

def releaseMeasure (x : AllocId) (s : Shared) : Int :=
  releases x s.log - ind ((s.alloc x).releaseRequested = true)

/-- The allocations a call has won and not yet sent a release for. -/
def ReleaseCall.unsent (x : AllocId) (r : ReleaseCall) : Int :=
  match r.pc with
  | .claim _ toRelease => cnt x toRelease
  | .send toRelease => cnt x toRelease
  | _ => 0

def releaseWeights (x : AllocId) : Weights where
  rsvd _ := 0
  alloc _ := 0
  release call := call.unsent x
  ret call :=
    match call.pc with
    | .release calls _ => Machine.weigh (ReleaseCall.unsent x) calls
    | _ => 0
  claimed _ := 0

def releaseGain (x : AllocId) (s : Shared) : Op → Int
  | .claimRelease c y _ _ => - ind (s.claimAt c y = .release x)
  | .cxlReleaseDynamicCapacity _ _ xs _ => cnt x xs
  | _ => 0

/-- Only a release command tells QEMU to release. -/
theorem releases_outputs (x : AllocId) (s : Shared) (op : Op) :
    releases x (op.outputs s) = match op with
      | .cxlReleaseDynamicCapacity _ _ xs _ => cnt x xs
      | _ => 0 := by
  by_cases hOp : ∃ c call xs ok, op = .cxlReleaseDynamicCapacity c call xs ok
  · obtain ⟨c, call, xs, ok, rfl⟩ := hOp
    show cnt x xs + 0 = cnt x xs
    omega
  · have hZero : releases x (op.outputs s) = 0 := by
      refine Machine.weigh_eq_zero fun o ho => ?_
      have hEmit := emits_of_mem ho
      cases hEmit with
      | released => exact absurd ⟨_, _, _, _, rfl⟩ hOp
      | _ => rfl
    rw [hZero]
    cases op with
    | cxlReleaseDynamicCapacity c call xs ok => exact absurd ⟨_, _, _, _, rfl⟩ hOp
    | _ => rfl

/-- A release command uses up the request that was marked for it. -/
theorem releaseMeasure_exec {x : AllocId} {s : Shared} (op : Op)
    (hNew : ¬ x < s.nextId → (s.alloc x).releaseRequested = false) :
    releaseMeasure x (op.exec s) ≤ releaseMeasure x s + releaseGain x s op := by
  have hOut := releases_outputs x s op
  unfold releaseMeasure
  rw [log_exec, releases, Machine.weigh_append, ← releases, ← releases, hOut]
  have hChange := allocChange_exec op s x
  generalize (op.exec s).alloc x = a at hChange ⊢
  cases hChange with
  | same _ _ _ _ hClaim =>
    cases op with
    | claimRelease c y call taken =>
      simp only [releaseGain, (hClaim c y call taken rfl).1, not_false_eq_true, ind_false]
      omega
    | cxlReleaseDynamicCapacity c call xs ok =>
      simp only [releaseGain]
      omega
    | _ =>
      simp only [releaseGain]
      omega
  | created hIn =>
    have hOld := hNew fun hlt => absurd hIn.1 (Nat.not_le.mpr hlt)
    simp only [releaseGain, EphAllocation.new, hOld]
    omega
  | @requested c y call taken hClaim =>
    have hOld := (claimAt_found hClaim).2
    have hLe := ind_le_one (s.claimAt c y = .release x)
    simp only [releaseGain, hOld, Bool.false_eq_true, not_false_eq_true, ind_false, ind_true]
    omega
  | _ =>
    simp only [releaseGain]
    omega

theorem ReleaseCall.unsent_nonneg (x : AllocId) (r : ReleaseCall) : 0 ≤ r.unsent x := by
  unfold unsent
  split
  · exact cnt_nonneg ..
  · exact cnt_nonneg ..
  · exact Int.le_refl 0

theorem cnt_toRelease (x : AllocId) (claim : Claim) :
    cnt x claim.toRelease = ind (claim = .release x) := by
  cases claim with
  | release y =>
    by_cases hy : y = x <;> simp [Claim.toRelease, hy]
  | _ => simp [Claim.toRelease]

/-- A release sends what it has marked, once. -/
theorem ReleaseCall.Step.unsent_le {tid : Tid} {s : Shared} {r r' : ReleaseCall} {op : Op}
    (h : ReleaseCall.Step tid s r op r') (x : AllocId) :
    r'.unsent x + releaseGain x s op ≤ r.unsent x := by
  cases h with
  | claim =>
    simp only [ReleaseCall.unsent, releaseGain, cnt_append, cnt_toRelease]
    omega
  | claimed => exact Int.le_of_eq (Int.add_zero _)
  | sent =>
    simp only [ReleaseCall.unsent, releaseGain]
    omega
  | failed =>
    simp only [ReleaseCall.unsent, releaseGain]
    omega
  | _ => exact Int.le_refl 0

/-- Every thread pays for the release commands it sends. -/
theorem releaseWeights_pays (x : AllocId) (c : System) :
    (releaseWeights x).Pays (releaseGain x c.shared) c where
  plain op h := by cases op <;> first | exact Int.le_refl 0 | cases h
  rsvd_nil := rfl
  reserve _ _ _ := Int.le_refl 0
  reserved _ := Int.le_refl 0
  alloc i v call call' l op _ h := by
    cases h with
    | giveBack hg => cases hg <;> exact Int.le_refl 0
    | _ => exact Int.le_refl 0
  allocated _ _ _ := Int.le_refl 0
  release tid r r' op h := h.unsent_le x
  released r _ := r.unsent_nonneg x
  start _ := Int.le_refl 0
  ret _ _ r r' op _ _ h := by
    cases h with
    | organized =>
      have hZero : ∀ (cons : List (VmId × List AllocId)) (taken : List AllocId),
          Machine.weigh (ReleaseCall.unsent x)
            (cons.map fun g => ⟨g.1, g.2, taken, .enter⟩) = 0 := by
        intro cons taken
        refine Machine.weigh_eq_zero fun r hr => ?_
        obtain ⟨g, -, rfl⟩ := List.mem_map.mp hr
        rfl
      simp only [releaseWeights, releaseGain, hZero]
      exact Int.le_refl 0
    | release hr hStep =>
      have hLe := hStep.unsent_le x
      simp only [releaseWeights, Machine.weigh_set _ hr]
      omega
    | @released allocs calls dons _ =>
      exact Machine.weigh_nonneg (ReleaseCall.unsent_nonneg x) calls
    | giveBack _ hg => cases hg <;> exact Int.le_refl 0
    | _ => exact Int.le_refl 0
  returned r h := by
    simp [releaseWeights, h]
  claimed_nil := Int.le_refl 0
  claim _ _ _ _ := Int.le_refl 0
  pass _ _ _ := Int.le_refl 0
  giveBack _ := Int.le_refl 0

/-- Only the winner of `release_requested` sends a release, once. -/
def releaseLaw (s : System) : Prop :=
  ∀ x, Machine.total (releaseMeasure x) (releaseWeights x).task s ≤ 0

/-- No operation marks what is marked already. -/
theorem releaseLaw.move {s s' : System} {op : Op} (h : releaseLaw s) (hCore : CoreInv s)
    (hm : orchestrator.Move s op s') : releaseLaw s' := by
  intro x
  refine le_trans (Weights.total_le hm (releaseMeasure_exec op fun hx => ?_)
    (releaseWeights_pays x s)) (h x)
  rw [hCore.untouched x hx]
  rfl

/-- QEMU is told to release an allocation at most once. -/
theorem releaseLaw.releases_le {s : System} (h : releaseLaw s) (x : AllocId) :
    releases x s.shared.log ≤ 1 := by
  have hTotal := h x
  have hNonneg : 0 ≤ Machine.weigh (releaseWeights x).task s.tasks := by
    refine Machine.weigh_nonneg (Weights.task_nonneg (fun _ => Int.le_refl 0)
      (fun _ => Int.le_refl 0) (ReleaseCall.unsent_nonneg x) (fun r => ?_)
        (fun _ => Int.le_refl 0)) s.tasks
    simp only [releaseWeights]
    split
    · exact Machine.weigh_nonneg (ReleaseCall.unsent_nonneg x) _
    · exact Int.le_refl 0
  have hOne := ind_le_one ((s.shared.alloc x).releaseRequested = true)
  simp only [Machine.total, releaseMeasure] at hTotal
  omega

end

-- ---------------------------------------------------------------------------
-- The donor that granted the memory
-- ---------------------------------------------------------------------------

/-- The log shows a grant of `d` and the confirmation that put `x` under it,
and the grant covers everything that was kept of it. -/
def GrantedTo (log : List Output) (d : DonorAllocation) (x : AllocId) : Prop :=
  ∃ size granted kept settled, .ephMemDonateCapacity d size (some granted) ∈ log ∧
    .confirmed d kept settled ∈ log ∧ x ∈ kept ∧
      kept.length * granularity + settled ≤ granted

theorem GrantedTo.mono {log log' : List Output} {d : DonorAllocation} {x : AllocId}
    (h : GrantedTo log d x) (hLog : log <:+ log') : GrantedTo log' d x := by
  obtain ⟨size, granted, kept, settled, h1, h2, h3, h4⟩ := h
  exact ⟨size, granted, kept, settled, hLog.subset h1, hLog.subset h2, h3, h4⟩

/-- What a grant in progress has on record. -/
def AllocCall.Granted (log : List Output) (a : AllocCall) : Prop :=
  match a.pc with
  | .confirm d size (some granted) => .ephMemDonateCapacity d size (some granted) ∈ log
  | .handBack d n _ => ∀ x ∈ a.rest.take n, GrantedTo log d x
  | .commit d n _ => ∀ x ∈ a.rest.take n, GrantedTo log d x
  | .commitState d x n _ => GrantedTo log d x ∧ ∀ y ∈ a.rest.take n, GrantedTo log d y
  | _ => True

def Task.Granted (log : List Output) : Task → Prop
  | .request ⟨_, .allocate call _⟩ => call.Granted log
  | _ => True

theorem AllocCall.Granted.mono {log log' : List Output} {a : AllocCall} (h : a.Granted log)
    (hLog : log <:+ log') : a.Granted log' := by
  unfold AllocCall.Granted at h ⊢
  split
  all_goals rename_i hpc
  all_goals simp only [hpc] at h
  · exact hLog.subset h
  · exact fun x hx => (h x hx).mono hLog
  · exact fun x hx => (h x hx).mono hLog
  · exact ⟨h.1.mono hLog, fun x hx => (h.2 x hx).mono hLog⟩
  · trivial

/-- What a confirmation keeps and what it hands back come from one grant. -/
theorem finalSize_add_toRevoke_le (r : DonatableRegion) (requested granted : Nat) :
    r.finalSize requested granted / granularity * granularity + r.toRevoke requested granted ≤
      granted := by
  have h1 := Nat.div_mul_le_self (r.finalSize requested granted) granularity
  have h2 : r.toRevoke requested granted ≤ DonatableRegion.usableGrant requested granted := by
    unfold DonatableRegion.toRevoke
    split
    · exact min_le_right _ _
    · exact Nat.zero_le _
  have h3 : DonatableRegion.usableGrant requested granted ≤ granted :=
    le_trans (Nat.sub_le _ _) (min_le_left _ _)
  have h4 : r.finalSize requested granted =
      DonatableRegion.usableGrant requested granted - r.toRevoke requested granted := rfl
  omega

/-- What a confirmation keeps is granted, by its own entry in the log. -/
theorem grantedTo_confirmed {s : Shared} {d : DonorAllocation} {rest : List AllocId}
    {size granted : Nat} {r : DonatableRegion} {log : List Output}
    (hr : s.region? d = some r)
    (hLe : r.finalSize size granted / granularity ≤ (rest.take (size / granularity)).length)
    (hDonate : .ephMemDonateCapacity d size (some granted) ∈ log)
    (hLog : log = (Op.handleReservedAlloc d (rest.take (size / granularity)) size granted).outputs
      s ++ s.log) {x : AllocId} (hx : x ∈ rest.take (r.finalSize size granted / granularity)) :
    GrantedTo log d x := by
  have hTake : (rest.take (size / granularity)).take (r.finalSize size granted / granularity) =
      rest.take (r.finalSize size granted / granularity) := by
    rw [List.take_take]
    congr 1
    rw [List.length_take] at hLe
    omega
  have hConfirmed : Output.confirmed d (rest.take (r.finalSize size granted / granularity))
      (r.toRevoke size granted) ∈ log := by
    rw [hLog, ← hTake]
    simp [Op.outputs, hr]
  have hLen := List.length_take_le (r.finalSize size granted / granularity) rest
  have hFit := finalSize_add_toRevoke_le r size granted
  refine ⟨size, granted, _, _, hDonate, hConfirmed, hx, le_trans ?_ hFit⟩
  exact Nat.add_le_add_right (Nat.mul_le_mul_right _ hLen) _

/-- A call commits only what its donor granted. -/
theorem AllocCall.Granted.step {s : Shared} {a a' : AllocCall} {op : Op}
    (h : a.Granted s.log) (hStep : AllocCall.Step s a op a') : a'.Granted (op.exec s).log := by
  have hLog : s.log <:+ (op.exec s).log := (evolves_exec op s).log
  cases hStep with
  | @donate backed rest last d size granted =>
    cases granted with
    | none => trivial
    | some granted => exact List.mem_cons_self ..
  | regionGone _ =>
    intro x hx
    cases hx
  | owing _ hr hLe =>
    exact fun x hx => grantedTo_confirmed hr hLe (hLog.subset h) (log_exec _ s) hx
  | confirmed _ hr hLe _ =>
    exact fun x hx => grantedTo_confirmed hr hLe (hLog.subset h) (log_exec _ s) hx
  | handBack => exact fun x hx => (h x hx).mono hLog
  | @setDonor backed rest abandoned last d n y _ =>
    refine ⟨(h y ?_).mono hLog, fun x hx => (h x ?_).mono hLog⟩
    · simp
    · rw [List.take_succ_cons]
      exact List.mem_cons_of_mem _ hx
  | live _ => exact fun x hx => (h.2 x hx).mono hLog
  | dead _ => exact fun x hx => (h.2 x hx).mono hLog
  | _ => trivial

/-- A thread commits only what its donor granted, and starts with nothing to commit. -/
theorem granted_step {tid : Tid} {s : Shared} {t t' : Task} {op : Op} {started : List Task}
    (h : t.Granted s.log) (hStep : Task.Step tid s t op t' started) :
    t'.Granted (op.exec s).log ∧ ∀ u ∈ started, u.Granted (op.exec s).log := by
  cases hStep with
  | events _ =>
    refine ⟨trivial, fun u hu => ?_⟩
    obtain ⟨v, -, rfl⟩ := List.mem_map.mp hu
    trivial
  | detection _ => exact ⟨trivial, nofun⟩
  | revoke _ => exact ⟨trivial, nofun⟩
  | request hq =>
    refine ⟨?_, nofun⟩
    cases hq with
    | allocate hc => exact AllocCall.Granted.step h hc
    | allLive =>
      unfold Request.afterDead
      split <;> trivial
    | returnedDead _ =>
      unfold Request.afterDead
      split <;> trivial
    | _ => trivial

/-- The only thread that sets a donor is a grant the donor has answered. -/
theorem Task.Step.setsGranted {tid : Tid} {s : Shared} {t t' : Task} {started : List Task}
    {x : AllocId} {d : DonorAllocation} (h : Task.Step tid s t (.setDonorInfo x d) t' started)
    (hGranted : t.Granted s.log) : GrantedTo s.log d x := by
  obtain ⟨c, call, call', rsvd, rfl, rfl, hc⟩ := h.grant rfl
  cases hc with
  | setDonor _ => exact hGranted x (by simp)
  | giveBack hg => cases hg

-- ---------------------------------------------------------------------------
-- Every run
-- ---------------------------------------------------------------------------

structure TeardownInv (s : System) : Prop where
  core : CoreInv s
  settled : ∀ x, Settled x s.shared.log (s.shared.alloc x).state
  releases : releaseLaw s
  granted : ∀ (i : Nat) (t : Task), s.tasks[i]? = some t → t.Granted s.shared.log
  donor : ∀ x d, (s.shared.alloc x).donorInfo = some d → GrantedTo s.shared.log d x
  taken : ∀ x d, .abandoned x (some d) ∈ s.shared.log → GrantedTo s.shared.log d x
  setOnce : .panicked .donorInfoSetTwice ∉ s.shared.log
  committedOnce : .panicked .committedTwice ∉ s.shared.log

/-- A grant backs what has no donor, so neither of its assertions fails. -/
theorem Task.Step.op_ne_panic {tid : Tid} {s : Shared} {t t' : Task} {op : Op}
    {started : List Task} (h : Task.Step tid s t op t' started)
    (hRest : ∀ v call l, t = .request ⟨v, .allocate call l⟩ →
      ∀ x ∈ call.rest, (s.alloc x).donorInfo = none) :
    op ≠ .panic .donorInfoSetTwice ∧ op ≠ .panic .committedTwice := by
  cases h with
  | events hl => cases hl <;> exact ⟨nofun, nofun⟩
  | detection hl =>
    cases hl with
    | consumerReturn hr => exact ⟨hr.op_ne_panic _, hr.op_ne_panic _⟩
    | donorReturn hr => exact ⟨hr.op_ne_panic _, hr.op_ne_panic _⟩
    | _ => exact ⟨nofun, nofun⟩
  | revoke hv =>
    cases hv with
    | giveBack hr => exact ⟨hr.op_ne_panic _, hr.op_ne_panic _⟩
    | _ => exact ⟨nofun, nofun⟩
  | request hq =>
    cases hq with
    | drop hr => exact ⟨hr.op_ne_panic _, hr.op_ne_panic _⟩
    | returnDead hr => exact ⟨hr.op_ne_panic _, hr.op_ne_panic _⟩
    | returnAll hr => exact ⟨hr.op_ne_panic _, hr.op_ne_panic _⟩
    | allocate hc =>
      cases hc with
      | donorSet hne => exact absurd (hRest _ _ _ rfl _ (List.mem_cons_self ..)) hne
      | giveBack hg => cases hg <;> exact ⟨nofun, nofun⟩
      | reserveOut _ => exact ⟨by simp, by simp⟩
      | confirmOut _ => exact ⟨by simp, by simp⟩
      | commitOut => exact ⟨by simp, by simp⟩
      | _ => exact ⟨nofun, nofun⟩
    | _ => exact ⟨nofun, nofun⟩

/-- Where an allocation has a donor, the donor granted it. -/
theorem TeardownInv.donor_exec {s s' : System} {op : Op} (h : TeardownInv s)
    (hm : orchestrator.Move s op s') {x : AllocId} {d : DonorAllocation}
    (hd : ((op.exec s.shared).alloc x).donorInfo = some d) :
    GrantedTo (op.exec s.shared).log d x := by
  have hLog := (evolves_exec op s.shared).log
  have hChange := allocChange_exec op s.shared x
  generalize (op.exec s.shared).alloc x = a at hChange hd
  cases hChange with
  | created _ => cases hd
  | @donorSet d' =>
    cases hOld : (s.shared.alloc x).donorInfo with
    | some d'' =>
      rw [hOld, Option.some_or] at hd
      cases hd
      exact (h.donor x d hOld).mono hLog
    | none =>
      rw [hOld, Option.none_or] at hd
      cases hd
      rcases move_cases hm with ⟨i, t, t', started, ht, hs, -⟩ | ⟨started, hs, -⟩
      · exact (hs.setsGranted (h.granted i t ht)).mono hLog
      · cases hs
  | _ => exact (h.donor x d hd).mono hLog

/-- The invariant holds on, part by part. -/
theorem TeardownInv.move {s s' : System} {op : Op} (h : TeardownInv s)
    (hm : orchestrator.Move s op s') : TeardownInv s' := by
  have hLog := (evolves_exec op s.shared).log
  have hPanic : op ≠ .panic .donorInfoSetTwice ∧ op ≠ .panic .committedTwice := by
    rcases move_cases hm with ⟨i, t, t', started, ht, hs, -⟩ | ⟨started, hs, -⟩
    · refine hs.op_ne_panic ?_
      rintro v call l rfl x hx
      exact h.core.rest_unset ht hx
    · cases hs <;> exact ⟨nofun, nofun⟩
  refine ⟨h.core.move hm, fun x => ?_, h.releases.move h.core hm, ?_, fun x d hd => ?_,
    fun x d hMem => ?_, fun hMem => ?_, fun hMem => ?_⟩
  · rw [hm.shared_eq]
    exact settled_move h.core hm (h.settled x)
  · refine forall_tasks (J := fun _ s t => t.Granted s.log) hm h.granted
      (fun i t t' started ht hs => ?_) (fun started hs j u hu => ?_) (fun j u _ hu => ?_)
    · have hNext := granted_step (h.granted i t ht) hs
      exact ⟨hNext.1, fun _ => hNext.2⟩
    · cases hs with
      | request => rw [List.mem_singleton.mp hu]; trivial
      | _ => cases hu
    · unfold Task.Granted at hu ⊢
      split
      · exact AllocCall.Granted.mono hu hLog
      · trivial
  · rw [hm.shared_eq] at hd ⊢
    exact h.donor_exec hm hd
  · rw [hm.shared_eq] at hMem ⊢
    rcases mem_log_exec hMem with hEmit | hOld
    · generalize ho : Output.abandoned x (some d) = o at hEmit
      cases hEmit with
      | @abandoned y =>
        obtain ⟨rfl, hTake⟩ := Output.abandoned.inj ho
        exact (h.donor x d (abandonOrTakeDonor_some hTake.symm).2).mono hLog
      | _ => cases ho
    · exact (h.taken x d hOld).mono hLog
  · rw [hm.shared_eq] at hMem
    rcases mem_log_exec hMem with hEmit | hOld
    · cases hEmit
      exact hPanic.1 rfl
    · exact h.setOnce hOld
  · rw [hm.shared_eq] at hMem
    rcases mem_log_exec hMem with hEmit | hOld
    · cases hEmit with
      | panicked => exact hPanic.2 rfl
      | @committedTwice x hNone =>
        -- a second commit would find the first on record
        have hZero := h.core.commits_zero hm
        have hParked : (s.shared.alloc x).parked = true := by
          unfold EphAllocation.commitState at hNone
          unfold EphAllocation.parked
          split at hNone <;> simp_all
        have hOne := h.core.tokens.parked x hParked
        omega
    · exact h.committedOnce hOld

theorem teardownInv_init {vm : VmId → Vm} {donor : VmId → DonorState}
    (hFresh : FreshDonors donor) : TeardownInv (initSystem vm donor) where
  core := coreInv_init hFresh
  settled := fun _ => ⟨rfl, rfl, rfl⟩
  releases := by
    intro x
    show 0 - ind (false = true) + 0 ≤ 0
    rw [ind_false (by simp)]
    omega
  granted := by
    intro i t ht
    have hMem := List.mem_of_getElem? ht
    simp only [initSystem, List.mem_cons, List.not_mem_nil, or_false] at hMem
    rcases hMem with rfl | rfl <;> trivial
  donor := nofun
  taken := nofun
  setOnce := List.not_mem_nil
  committedOnce := List.not_mem_nil

theorem Reachable.teardown {s : System} (h : Reachable s) : TeardownInv s := by
  obtain ⟨vm, donor, hFresh, hRun⟩ := h
  exact hRun.invariant (fun _ _ _ hInv hm _ => hInv.move hm) (teardownInv_init hFresh)

theorem one_le_commits_iff {x : AllocId} {log : List Output} :
    1 ≤ commits x log ↔ ∃ live, .committed x live ∈ log := by
  rw [commits, one_le_tally_iff]
  constructor
  · rintro ⟨o, ho, hp⟩
    unfold Output.isCommit at hp
    split at hp
    · rename_i y live
      rw [decide_eq_true_eq] at hp
      exact ⟨live, hp ▸ ho⟩
    · cases hp
  · rintro ⟨live, ho⟩
    exact ⟨_, ho, by simp [Output.isCommit]⟩

theorem one_le_abandons_iff {x : AllocId} {log : List Output} :
    1 ≤ abandons x log ↔ ∃ donor, .abandoned x donor ∈ log := by
  rw [abandons, one_le_tally_iff]
  constructor
  · rintro ⟨o, ho, hp⟩
    unfold Output.isAbandon at hp
    split at hp
    · rename_i y donor
      rw [decide_eq_true_eq] at hp
      exact ⟨donor, hp ▸ ho⟩
    · cases hp
  · rintro ⟨donor, ho⟩
    exact ⟨_, ho, by simp [Output.isAbandon]⟩

/-- The answers in a state decide whether a party is responsible. -/
theorem Settled.responsible {x : AllocId} {log : List Output} {state : AllocState}
    (h : Settled x log state) (hOnce : commits x log ≤ 1) :
    ((1 ≤ commits x log ∧ 1 ≤ abandons x log) → takes x log + refusals x log = 1) ∧
      (¬ (1 ≤ commits x log ∧ 1 ≤ abandons x log) → takes x log + refusals x log = 0) ∧
        claims x log ≤ 1 := by
  have hTake := takes_le_abandons x log
  have hTake' : 0 ≤ takes x log := tally_nonneg _ _
  have hRefuse := refusals_le_commits x log
  have hRefuse' : 0 ≤ refusals x log := tally_nonneg _ _
  have hCommit := commits_nonneg x log
  cases state with
  | pendingCommit =>
    obtain ⟨h1, h2, h3⟩ := h
    refine ⟨fun _ => ?_, fun _ => ?_, ?_⟩ <;> omega
  | committed =>
    obtain ⟨h1, h2, h3, h4⟩ := h
    refine ⟨fun _ => ?_, fun _ => ?_, ?_⟩ <;> omega
  | pendingRelease =>
    obtain ⟨h1, h2, h3, h4⟩ := h
    refine ⟨fun _ => ?_, fun _ => ?_, ?_⟩ <;> omega
  | abandoned =>
    obtain ⟨h1, h2, h3⟩ := h
    refine ⟨fun _ => ?_, fun _ => ?_, ?_⟩ <;> omega

/-- **Exactly-once teardown.** In every reachable state and for every
allocation: exactly one call took the donor or was told to hand the memory
back if the allocation was both committed and abandoned, and none otherwise;
at most one revoke claimed it; at most one release of it was sent; every
donor that was handed out granted the memory, and no panic of the allocation
state machine was reached. -/
theorem exactly_once_teardown {s : System} (h : Reachable s) (x : AllocId) :
    ((∃ live, .committed x live ∈ s.shared.log) ∧ (∃ donor, .abandoned x donor ∈ s.shared.log) →
      takes x s.shared.log + refusals x s.shared.log = 1) ∧
    (¬ ((∃ live, .committed x live ∈ s.shared.log) ∧
        ∃ donor, .abandoned x donor ∈ s.shared.log) →
      takes x s.shared.log + refusals x s.shared.log = 0) ∧
    claims x s.shared.log ≤ 1 ∧ releases x s.shared.log ≤ 1 ∧
    (∀ d, .abandoned x (some d) ∈ s.shared.log → GrantedTo s.shared.log d x) ∧
    .panicked .donorInfoSetTwice ∉ s.shared.log ∧ .panicked .committedTwice ∉ s.shared.log := by
  have hInv := h.teardown
  have hOnce : commits x s.shared.log ≤ 1 :=
    le_trans (hInv.core.tokens.commit.commits_le x) (ind_le_one _)
  obtain ⟨hBoth, hElse, hClaims⟩ := (hInv.settled x).responsible hOnce
  rw [one_le_commits_iff, one_le_abandons_iff] at hBoth hElse
  exact ⟨hBoth, hElse, hClaims, hInv.releases.releases_le x, hInv.taken x, hInv.setOnce,
    hInv.committedOnce⟩

/-- After `demoCommit` the donor asks for its chunk back: the revoke claims the
allocation and takes its donor. -/
def demoRevoke : List (Label Op Choice) :=
  demoCommit ++ [.outside (.emitRevoke 0 7 granularity), .task 0 .go,
    -- select, book no debt, group, abandon
    .task 3 .go, .task 3 .go, .task 3 .go, .task 3 .go, .task 3 .go]

theorem demoRevoke_runs : (orchestrator.run demo demoRevoke).isSome = true := by decide +kernel

theorem exactly_once_teardown_revoked :
    ((∃ live, .committed 1 live ∈ (demoAfter demoRevoke).shared.log) ∧
      (∃ donor, .abandoned 1 donor ∈ (demoAfter demoRevoke).shared.log)) ∧
    takes 1 (demoAfter demoRevoke).shared.log + refusals 1 (demoAfter demoRevoke).shared.log =
      1 := by
  have hCommitted : Output.committed 1 true ∈ (demoAfter demoRevoke).shared.log := by
    decide +kernel
  have hAbandoned : Output.abandoned 1 (some ⟨0, 7⟩) ∈ (demoAfter demoRevoke).shared.log := by
    decide +kernel
  refine ⟨⟨⟨_, hCommitted⟩, ⟨_, hAbandoned⟩⟩, ?_⟩
  exact (exactly_once_teardown (demo_reachable demoRevoke_runs) 1).1
    ⟨⟨_, hCommitted⟩, ⟨_, hAbandoned⟩⟩

end EphMemory.Orchestrator
