import EphMemory.Orchestrator.Weights

/-!
# Orchestrator — who holds an allocation

An allocation is created once and handed from call to call. The laws here say
that at most one grant holds it at a time.

* `restLaw` — an allocation is still to be backed by at most one grant, and by
  none once its donor is set;
* `commitLaw` — it is committed at most once, and only with its donor set;
* `parkedLaw` — a parked allocation was committed;
* `Task.DonorSet` — a grant commits with the donor it has set.
-/

namespace EphMemory.Orchestrator

open EphMemory.Lib

noncomputable section

/-- How often a reservation creates the allocation `x`. -/
def created (x : AllocId) (s : Shared) : Op → Int
  | .reserveMemoryContig c size => cnt x (s.newIds c size)
  | _ => 0

/-- An allocation exists from the reservation that creates it on. -/
theorem ind_lt_nextId_exec (x : AllocId) (s : Shared) (op : Op) :
    ind (x < (op.exec s).nextId) = ind (x < s.nextId) + created x s op := by
  by_cases hOp : ∃ c size, op = .reserveMemoryContig c size
  · obtain ⟨c, size, rfl⟩ := hOp
    show ind (x < s.nextId + (s.newOffsets c size).length) = _ + cnt x (s.newIds c size)
    rw [cnt_newIds]
    unfold ind
    by_cases h1 : x < s.nextId
    · have h2 : x < s.nextId + (s.newOffsets c size).length := Nat.lt_add_right _ h1
      have h3 : ¬ (s.nextId ≤ x ∧ x < s.nextId + (s.newOffsets c size).length) :=
        fun h => absurd h1 (Nat.not_lt.mpr h.1)
      rw [if_pos h1, if_pos h2, if_neg h3]
      rfl
    · rw [if_neg h1]
      by_cases h2 : x < s.nextId + (s.newOffsets c size).length
      · rw [if_pos h2, if_pos ⟨Nat.not_lt.mp h1, h2⟩]
        rfl
      · rw [if_neg h2, if_neg fun h => h2 h.2]
        rfl
  · have hNext : (op.exec s).nextId = s.nextId :=
      nextId_exec fun c size heq => hOp ⟨c, size, heq⟩
    have hZero : created x s op = 0 := by
      cases op with
      | reserveMemoryContig c size => exact absurd ⟨c, size, rfl⟩ hOp
      | _ => rfl
    rw [hNext, hZero, Int.add_zero]

-- ---------------------------------------------------------------------------
-- Backed at most once
-- ---------------------------------------------------------------------------

def restMeasure (x : AllocId) (s : Shared) : Int :=
  ind ((s.alloc x).donorInfo ≠ none) - ind (x < s.nextId)

def restWeights (x : AllocId) : Weights where
  rsvd l := cnt x l
  alloc call := cnt x call.rest
  release _ := 0
  ret _ := 0
  claimed _ := 0

def restGain (x : AllocId) (s : Shared) : Op → Int
  | .setDonorInfo y _ => ind (y = x)
  | op => - created x s op

/-- What an operation adds to the measure is at most what it brings. -/
theorem restMeasure_exec (x : AllocId) (s : Shared) (op : Op) :
    restMeasure x (op.exec s) ≤ restMeasure x s + restGain x s op := by
  have hNext := ind_lt_nextId_exec x s op
  unfold restMeasure
  have hChange := allocChange_exec op s x
  generalize (op.exec s).alloc x = a at hChange ⊢
  cases hChange with
  | @donorSet d =>
    have h1 := ind_le_one ((s.alloc x).donorInfo.or (some d) ≠ none)
    have h2 := ind_nonneg ((s.alloc x).donorInfo ≠ none)
    simp only [created] at hNext
    simp only [restGain, ind_true]
    omega
  | created hNew =>
    simp only [created] at hNext
    simp only [restGain, created, EphAllocation.new, ne_eq, not_true_eq_false, not_false_eq_true,
      ind_false]
    have h2 := ind_nonneg ((s.alloc x).donorInfo ≠ none)
    simp only [ne_eq] at h2
    omega
  | same _ _ _ hOther _ =>
    have hGain : restGain x s op = - created x s op := by
      cases op with
      | setDonorInfo y d =>
        have hne : y ≠ x := fun heq => hOther d (by rw [heq])
        simp [restGain, created, hne]
      | _ => rfl
    omega
  | _ =>
    simp only [created] at hNext
    simp only [restGain, created]
    omega

/-- A grant has one more allocation to back for each that is created for it, and
one less for each donor it sets. -/
theorem restWeights_pays (x : AllocId) (c : System) :
    (restWeights x).Pays (restGain x c.shared) c where
  plain op h := by cases op <;> first | exact Int.le_refl 0 | cases h
  rsvd_nil := rfl
  reserve v n l := by
    show cnt x (l ++ c.shared.newIds v n) + - cnt x (c.shared.newIds v n) ≤ cnt x l
    rw [cnt_append]
    omega
  reserved l := Int.le_refl _
  alloc i v call call' l op _ h := by
    cases h with
    | setDonor _ =>
      simp only [restWeights, restGain, cnt_cons]
      omega
    | giveBack hg =>
      cases hg <;> exact Int.le_of_eq (Int.add_zero _)
    | _ => exact Int.le_of_eq (Int.add_zero _)
  allocated v call _ := cnt_nonneg x call.rest
  release tid r r' op h := by
    cases h <;> exact Int.le_refl 0
  released _ _ := Int.le_refl 0
  start _ := Int.le_refl 0
  ret _ _ r r' op _ _ h := by
    have hOp := h.ofReturn
    cases op <;> first | exact Int.le_refl 0 | cases hOp
  returned _ _ := Int.le_refl 0
  claimed_nil := Int.le_refl 0
  claim _ _ _ _ := Int.le_refl 0
  pass _ _ _ := Int.le_refl 0
  giveBack _ := Int.le_refl 0

/-- An allocation is still to be backed by at most one grant, by none once its
donor is set or before it exists. -/
def restLaw (s : System) : Prop :=
  ∀ x, Machine.total (restMeasure x) (restWeights x).task s ≤ 0

/-- Every operation is paid for by the thread that performs it. -/
theorem restLaw.move {s s' : System} {op : Op} (h : restLaw s)
    (hm : orchestrator.Move s op s') : restLaw s' := fun x =>
  le_trans (Weights.total_le hm (restMeasure_exec x s.shared op) (restWeights_pays x s)) (h x)

theorem restWeights_nonneg (x : AllocId) (t : Task) : 0 ≤ (restWeights x).task t :=
  Weights.task_nonneg (cnt_nonneg x) (fun a => cnt_nonneg x a.rest) (fun _ => Int.le_refl 0)
    (fun _ => Int.le_refl 0) (fun _ => Int.le_refl 0) t

/-- An allocation that does not exist has no donor. -/
theorem restLaw.donorInfo_none {s : System} (h : restLaw s) {x : AllocId}
    (hx : ¬ x < s.shared.nextId) : (s.shared.alloc x).donorInfo = none := by
  by_contra hne
  have hTotal := h x
  have hNonneg := Machine.weigh_nonneg (restWeights_nonneg x) s.tasks
  simp only [Machine.total, restMeasure, ind_true hne, ind_false hx] at hTotal
  omega

/-- The grant that still has to back `x` is the only one, `x` exists, and it
has no donor. -/
theorem restLaw.rest {s : System} (h : restLaw s) {i : Nat} {v : VmId} {call : AllocCall}
    {l : List AllocId} (ht : s.tasks[i]? = some (.request ⟨v, .allocate call l⟩)) (x : AllocId) :
    cnt x call.rest + ind ((s.shared.alloc x).donorInfo ≠ none) ≤ ind (x < s.shared.nextId) := by
  have hTotal := h x
  have hTask : cnt x call.rest ≤ Machine.weigh (restWeights x).task s.tasks :=
    Machine.le_weigh (restWeights_nonneg x) ht
  simp only [Machine.total, restMeasure] at hTotal
  omega

-- ---------------------------------------------------------------------------
-- Committed at most once
-- ---------------------------------------------------------------------------

def Output.isCommit (x : AllocId) : Output → Bool
  | .committed y _ => decide (y = x)
  | _ => false

/-- The calls of `commit_allocation` on `x` that a log records. -/
def commits (x : AllocId) (log : List Output) : Int := tally (Output.isCommit x) log

theorem commits_append (x : AllocId) (l l' : List Output) :
    commits x (l ++ l') = commits x l + commits x l' := tally_append _ l l'

theorem commits_nonneg (x : AllocId) (l : List Output) : 0 ≤ commits x l := tally_nonneg _ l

def commitMeasure (x : AllocId) (s : Shared) : Int :=
  commits x s.log - ind ((s.alloc x).donorInfo ≠ none)

def commitWeights (x : AllocId) : Weights where
  rsvd _ := 0
  alloc call :=
    match call.pc with
    | .commitState _ y _ _ => ind (y = x)
    | _ => 0
  release _ := 0
  ret _ := 0
  claimed _ := 0

def commitGain (x : AllocId) (s : Shared) : Op → Int
  | .setDonorInfo y _ => - ind (y = x ∧ (s.alloc y).donorInfo = none)
  | .commitState y => ind (y = x)
  | _ => 0

/-- How often an operation commits `x`. -/
def commitCalls (x : AllocId) : Op → Int
  | .commitState y => ind (y = x)
  | _ => 0

/-- An operation records a commit of `x` only if it commits `x`. -/
theorem commits_outputs (x : AllocId) (s : Shared) (op : Op) :
    commits x (op.outputs s) ≤ commitCalls x op := by
  by_cases hOp : op = .commitState x
  · subst hOp
    simp only [Op.outputs, commitCalls, ind_true]
    split <;> simp [commits, tally, Output.isCommit]
  · have hZero : commits x (op.outputs s) = 0 := by
      refine tally_outputs_eq_zero fun o ho => ?_
      cases ho with
      | @committed y live a _ =>
        have hne : y ≠ x := fun heq => hOp (by rw [heq])
        simp [Output.isCommit, hne]
      | _ => rfl
    rw [hZero]
    cases op with
    | commitState y => exact ind_nonneg _
    | _ => exact Int.le_refl 0

/-- A commit uses up the donor that was set for it. -/
theorem commitMeasure_exec {x : AllocId} {s : Shared} (op : Op)
    (hNew : ¬ x < s.nextId → (s.alloc x).donorInfo = none) :
    commitMeasure x (op.exec s) ≤ commitMeasure x s + commitGain x s op := by
  have hOut := commits_outputs x s op
  unfold commitMeasure
  rw [log_exec, commits_append]
  have hChange := allocChange_exec op s x
  generalize (op.exec s).alloc x = a at hChange ⊢
  cases hChange with
  | @donorSet d =>
    simp only [commitCalls] at hOut
    cases hd : (s.alloc x).donorInfo with
    | none =>
      simp only [commitGain, hd, Option.none_or, ne_eq, reduceCtorEq, not_false_eq_true, ind_true,
        not_true_eq_false, ind_false, and_self]
      omega
    | some d' =>
      simp only [commitGain, hd, Option.some_or, ne_eq, reduceCtorEq, not_false_eq_true, ind_true,
        and_false, ind_false]
      omega
  | created hIn =>
    have hNone := hNew fun hlt => absurd hIn.1 (Nat.not_le.mpr hlt)
    simp only [commitCalls] at hOut
    simp only [commitGain, EphAllocation.new, hNone, ne_eq, not_true_eq_false, not_false_eq_true,
      ind_false]
    omega
  | same _ _ _ hOther _ =>
    have hGain : commitCalls x op = commitGain x s op := by
      cases op with
      | setDonorInfo y d =>
        have hne : y ≠ x := fun heq => hOther d (by rw [heq])
        simp [commitGain, commitCalls, hne]
      | _ => rfl
    omega
  | _ =>
    simp only [commitCalls] at hOut
    simp only [commitGain]
    omega

/-- A grant may commit once for each donor it has set. -/
theorem commitWeights_pays (x : AllocId) (c : System) :
    (commitWeights x).Pays (commitGain x c.shared) c where
  plain op h := by cases op <;> first | exact Int.le_refl 0 | cases h
  rsvd_nil := rfl
  reserve v n l := Int.le_refl 0
  reserved l := Int.le_refl _
  alloc i v call call' l op _ h := by
    cases h with
    | @setDonor backed rest abandoned last d n y hd =>
      simp only [commitWeights, commitGain, hd, and_true]
      omega
    | @live backed rest abandoned last d n y _ =>
      simp only [commitWeights, commitGain]
      omega
    | @dead backed rest abandoned last d n y _ =>
      simp only [commitWeights, commitGain]
      omega
    | @committedTwice backed rest abandoned last d n y _ =>
      simp only [commitWeights, commitGain]
      omega
    | giveBack hg => cases hg <;> exact Int.le_refl 0
    | _ => exact Int.le_refl 0
  allocated v call h := by
    simp [commitWeights, h]
  release tid r r' op h := by
    cases h <;> exact Int.le_refl 0
  released _ _ := Int.le_refl 0
  start _ := Int.le_refl 0
  ret _ _ r r' op _ _ h := by
    have hOp := h.ofReturn
    cases op <;> first | exact Int.le_refl 0 | cases hOp
  returned _ _ := Int.le_refl 0
  claimed_nil := Int.le_refl 0
  claim _ _ _ _ := Int.le_refl 0
  pass _ _ _ := Int.le_refl 0
  giveBack _ := Int.le_refl 0

/-- An allocation is committed at most once, and only with its donor set. -/
def commitLaw (s : System) : Prop :=
  ∀ x, Machine.total (commitMeasure x) (commitWeights x).task s ≤ 0

/-- No operation commits what is committed: the grant that does had it to itself. -/
theorem commitLaw.move {s s' : System} {op : Op} (h : commitLaw s) (hRest : restLaw s)
    (hm : orchestrator.Move s op s') : commitLaw s' := fun x =>
  le_trans (Weights.total_le hm (commitMeasure_exec op hRest.donorInfo_none)
    (commitWeights_pays x s)) (h x)

theorem commitWeights_nonneg (x : AllocId) (t : Task) : 0 ≤ (commitWeights x).task t := by
  refine Weights.task_nonneg (fun _ => Int.le_refl 0) (fun a => ?_) (fun _ => Int.le_refl 0)
    (fun _ => Int.le_refl 0) (fun _ => Int.le_refl 0) t
  simp only [commitWeights]
  split
  · exact ind_nonneg _
  · exact Int.le_refl 0

/-- What has been committed has its donor. -/
theorem commitLaw.commits_le {s : System} (h : commitLaw s) (x : AllocId) :
    commits x s.shared.log ≤ ind ((s.shared.alloc x).donorInfo ≠ none) := by
  have hTotal := h x
  have hNonneg := Machine.weigh_nonneg (commitWeights_nonneg x) s.tasks
  simp only [Machine.total, commitMeasure] at hTotal
  omega

/-- A grant about to commit `x` is the first to do so. -/
theorem commitLaw.first {s : System} (h : commitLaw s) {i : Nat} {v : VmId}
    {call : AllocCall} {l : List AllocId} {d : DonorAllocation} {x : AllocId} {n : Nat}
    {abandoned : List AllocId}
    (ht : s.tasks[i]? = some (.request ⟨v, .allocate call l⟩))
    (hpc : call.pc = .commitState d x n abandoned) :
    commits x s.shared.log = 0 ∧ (s.shared.alloc x).donorInfo ≠ none := by
  have hTotal := h x
  have hTask : (commitWeights x).alloc call ≤ Machine.weigh (commitWeights x).task s.tasks :=
    Machine.le_weigh (commitWeights_nonneg x) ht
  have hOne : (commitWeights x).alloc call = 1 := by
    simp [commitWeights, hpc]
  have hLe := ind_le_one ((s.shared.alloc x).donorInfo ≠ none)
  have hNonneg := commits_nonneg x s.shared.log
  simp only [Machine.total, commitMeasure] at hTotal
  refine ⟨by omega, fun hNone => ?_⟩
  rw [ind_false (not_not_intro hNone)] at hTotal
  omega

-- ---------------------------------------------------------------------------
-- Parked allocations have a donor
-- ---------------------------------------------------------------------------

/-- A parked allocation went through `commit_allocation`. -/
def parkedLaw (s : Shared) : Prop :=
  ∀ x, (s.alloc x).parked = true → 1 ≤ commits x s.log

/-- Only `commit_allocation` parks an allocation. -/
theorem parkedLaw.exec {s : Shared} (h : parkedLaw s) (op : Op) : parkedLaw (op.exec s) := by
  intro x hx
  rw [log_exec, commits_append]
  have hNonneg := commits_nonneg x (op.outputs s)
  have hOld : (s.alloc x).parked = true → 1 ≤ commits x (op.outputs s) + commits x s.log :=
    fun hp => by have := h x hp; omega
  have hChange := allocChange_exec op s x
  generalize (op.exec s).alloc x = a at hChange hx
  cases hChange with
  | created _ => cases hx
  | committed hs =>
    have hOut : 1 ≤ commits x ((Op.commitState x).outputs s) := by
      simp [Op.outputs, EphAllocation.commitState, hs, commits, tally, Output.isCommit]
    have hLog := commits_nonneg x s.log
    omega
  | claimed hs => exact hOld (by simp [EphAllocation.parked, hs])
  | abandoned => simp [EphAllocation.parked] at hx
  | _ => exact hOld hx

/-- The donor a grant is committing with is the one it has set. -/
def Task.DonorSet (s : Shared) : Task → Prop
  | .request ⟨_, .allocate call _⟩ =>
    match call.pc with
    | .commitState d x _ _ => (s.alloc x).donorInfo = some d
    | _ => True
  | _ => True

/-- A grant sets the donor right before it commits. -/
theorem AllocCall.Step.setsDonor {s : Shared} {a a' : AllocCall} {op : Op}
    (h : AllocCall.Step s a op a') :
    match a'.pc with
    | .commitState d x _ _ => ((op.exec s).alloc x).donorInfo = some d
    | _ => True := by
  cases h with
  | setDonor hd => simp [Op.exec, Shared.setAlloc, hd]
  | _ => trivial

/-- The thread that goes on to commit has just set the donor. -/
theorem donorSet_step {tid : Tid} {s : Shared} {t t' : Task} {op : Op} {started : List Task}
    (h : Task.Step tid s t op t' started) :
    t'.DonorSet (op.exec s) ∧ ∀ u ∈ started, u.DonorSet (op.exec s) := by
  cases h with
  | events _ =>
    refine ⟨trivial, fun u hu => ?_⟩
    obtain ⟨v, -, rfl⟩ := List.mem_map.mp hu
    trivial
  | detection _ => exact ⟨trivial, nofun⟩
  | revoke _ => exact ⟨trivial, nofun⟩
  | request hq =>
    refine ⟨?_, nofun⟩
    cases hq with
    | allocate hc => exact hc.setsDonor
    | allLive =>
      unfold Request.afterDead
      split <;> trivial
    | returnedDead _ =>
      unfold Request.afterDead
      split <;> trivial
    | _ => trivial

/-- Nobody takes a donor that is set away. -/
theorem donorSet_stable {s : Shared} {t : Task} (op : Op)
    (hNew : ∀ x, ¬ x < s.nextId → (s.alloc x).donorInfo = none) (h : t.DonorSet s) :
    t.DonorSet (op.exec s) := by
  have hKeep : ∀ x d, (s.alloc x).donorInfo = some d →
      ((op.exec s).alloc x).donorInfo = some d := by
    intro x d hd
    refine ((evolves_exec op s).alloc x ?_).donor d hd
    by_contra hx
    rw [hNew x hx] at hd
    cases hd
  unfold Task.DonorSet at h ⊢
  split
  · simp only at h ⊢
    split
    · rename_i hpc
      rw [hpc] at h
      exact hKeep _ _ h
    · trivial
  · trivial

end

end EphMemory.Orchestrator
