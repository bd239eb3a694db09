import EphMemory.Orchestrator.Known

/-!
# Orchestrator — whole chunks and the donor's lock

Two facts every argument about a region's debt rests on. Debts and requests
are whole chunks: a revoke rounds its size up before it claims anything, and a
claim takes one chunk off. And a donor's mutex is held by one thread: while a
revoke selects, no reservation, confirmation or other revoke touches a region
of that donor.

* `WholeInv` — the chunks, along every run;
* `LockInv` — who holds a donor's mutex, along every run.
-/

namespace EphMemory.Orchestrator

open EphMemory.Lib

-- ---------------------------------------------------------------------------
-- Whole chunks
-- ---------------------------------------------------------------------------

/-- The sizes a thread works with are whole chunks. -/
def Task.Whole : Task → Prop
  | .request ⟨_, .allocate ⟨_, _, _, .donate _ size⟩ _⟩ => granularity ∣ size
  | .request ⟨_, .allocate ⟨_, _, _, .confirm _ size _⟩ _⟩ => granularity ∣ size
  | .revoke ⟨_, .select _ _ remaining⟩ => granularity ∣ remaining
  | _ => True

/-- Every debt is a number of whole chunks. -/
def OwedWhole (s : Shared) : Prop :=
  ∀ d r, s.region? d = some r → granularity ∣ r.revokedOwed

/-- A request asks, reserves and grants in whole granules once it has rounded its size. -/
theorem Request.Step.whole {tid : Tid} {s : Shared} {q q' : Request} {op : Op}
    (h : Request.Step tid s q op q') (hq : (Task.request q).Whole) : (Task.request q').Whole := by
  cases h with
  | allocate hc =>
    cases hc with
    | @reserve _ rest _ _ _ r size _ _ _ hSize _ =>
      show granularity ∣ size
      rw [hSize]
      exact dvd_sizeToAllocate r _
    | donate => exact hq
    | _ => trivial
  | allLive =>
    unfold Request.afterDead
    split <;> trivial
  | returnedDead _ =>
    unfold Request.afterDead
    split <;> trivial
  | _ => trivial

/-- A revoke looks for a whole number of granules, and each allocation it claims is one. -/
theorem Revoke.Step.whole {tid : Tid} {s : Shared} {v v' : Revoke} {op : Op}
    (h : Revoke.Step tid s v op v') (hv : (Task.revoke v).Whole) : (Task.revoke v').Whole := by
  cases h with
  | enter hSize _ _ => exact dvd_of_checkedNextMultipleOf hSize
  | claim _ _ => exact Nat.dvd_sub hv (Nat.dvd_refl _)
  | pass _ => exact hv
  | _ => trivial

/-- Every thread goes on in whole granules. -/
theorem Task.Step.whole {tid : Tid} {s : Shared} {t t' : Task} {op : Op} {started : List Task}
    (h : Task.Step tid s t op t' started) (ht : t.Whole) :
    t'.Whole ∧ ∀ u ∈ started, u.Whole := by
  cases h with
  | events hl =>
    refine ⟨trivial, fun u hu => ?_⟩
    obtain ⟨v, hv, rfl⟩ := List.mem_map.mp hu
    cases hl with
    | revokeEvent _ _ => rw [List.mem_singleton.mp hv]; trivial
    | _ => cases hv
  | detection _ => exact ⟨trivial, nofun⟩
  | request hq => exact ⟨hq.whole ht, nofun⟩
  | revoke hv => exact ⟨hv.whole ht, nofun⟩

/-- A thread that books a debt books whole chunks. -/
theorem Task.Step.debt_whole {tid : Tid} {s : Shared} {t t' : Task} {d : DonorAllocation}
    {n : Nat} {started : List Task} (h : Task.Step tid s t (.bookDebt d n) t' started)
    (ht : t.Whole) : granularity ∣ n := by
  obtain ⟨v, v', rfl, rfl, hv⟩ := h.ofRevoke rfl
  cases hv with
  | enough _ => exact ht
  | giveBack hr => cases hr.performer

/-- The confirmation cuts a grant down to whole granules. -/
theorem dvd_usableGrant (requested granted : Nat) :
    granularity ∣ DonatableRegion.usableGrant requested granted := Nat.dvd_sub_mod _

theorem dvd_toRevoke {r : DonatableRegion} (h : granularity ∣ r.revokedOwed)
    (requested granted : Nat) : granularity ∣ r.toRevoke requested granted := by
  unfold DonatableRegion.toRevoke
  split
  · rcases Nat.le_total r.revokedOwed (DonatableRegion.usableGrant requested granted) with hLe | hLe
    · rw [Nat.min_eq_left hLe]
      exact h
    · rw [Nat.min_eq_right hLe]
      exact dvd_usableGrant requested granted
  · exact Nat.dvd_zero _

theorem dvd_finalSize {r : DonatableRegion} (h : granularity ∣ r.revokedOwed)
    (requested granted : Nat) : granularity ∣ r.finalSize requested granted :=
  Nat.dvd_sub (dvd_usableGrant requested granted) (dvd_toRevoke h requested granted)

/-- A debt stays whole: what is booked is, and what settles it is. -/
theorem OwedWhole.exec {s : Shared} (h : OwedWhole s) {op : Op}
    (hDebt : ∀ d n, op = .bookDebt d n → granularity ∣ n) : OwedWhole (op.exec s) := by
  intro d r' hr'
  cases hr : s.region? d with
  | none =>
    rw [region?_exec_none op hr] at hr'
    cases hr'
  | some r =>
    obtain ⟨r'', hr'', hChange⟩ := regionChange_exec op hr
    rw [hr''] at hr'
    cases hr'
    have hOld := h d r hr
    cases hChange with
    | same _ _ _ _ => exact hOld
    | reserved => exact hOld
    | confirmed => exact Nat.dvd_sub hOld (dvd_toRevoke hOld _ _)
    | booked =>
      unfold DonatableRegion.bookkeep
      split <;> exact hOld
    | debt => exact Nat.dvd_add hOld (hDebt _ _ rfl)

structure WholeInv (s : System) : Prop where
  tasks : ∀ (i : Nat) (t : Task), s.tasks[i]? = some t → t.Whole
  owed : OwedWhole s.shared

/-- Threads and debts stay whole together. -/
theorem WholeInv.move {s s' : System} {op : Op} (h : WholeInv s)
    (hm : orchestrator.Move s op s') : WholeInv s' where
  tasks := by
    refine forall_tasks (J := fun _ _ t => t.Whole) hm h.tasks (fun i t t' started ht hs => ?_)
      (fun started hs j u hu => ?_) (fun _ _ _ hu => hu)
    · have hStep := hs.whole (h.tasks i t ht)
      exact ⟨hStep.1, fun _ => hStep.2⟩
    · cases hs with
      | request => rw [List.mem_singleton.mp hu]; trivial
      | _ => cases hu
  owed := by
    rw [hm.shared_eq]
    refine h.owed.exec ?_
    rintro d n rfl
    rcases move_cases hm with ⟨i, t, t', started, ht, hs, -⟩ | ⟨started, hs, -⟩
    · exact hs.debt_whole (h.tasks i t ht)
    · cases hs

theorem wholeInv_init {vm : VmId → Vm} {donor : VmId → DonorState} (hFresh : FreshDonors donor) :
    WholeInv (initSystem vm donor) where
  tasks := by
    intro i t ht
    have hMem := List.mem_of_getElem? ht
    simp only [initSystem, List.mem_cons, List.not_mem_nil, or_false] at hMem
    rcases hMem with rfl | rfl <;> trivial
  owed := by
    intro d r hr
    rw [hFresh d.donorVm r (region?_mem hr)]
    exact Nat.dvd_zero _

-- ---------------------------------------------------------------------------
-- The donor's mutex
-- ---------------------------------------------------------------------------

/-- The thread is inside a section of the donor `v` that takes several steps. -/
def Task.holdsDonor (v : VmId) : Task → Prop
  | .revoke ⟨d, .select _ _ _⟩ => d.donorVm = v
  | .detection (.donorCollect _ _ w _) => w = v
  | _ => False

/-- Whom an operation makes the holder of which donor's mutex. -/
def Op.setsDonorLock : Op → Option (VmId × Option Tid)
  | .unlockDonor v => some (v, none)
  | .beginRevoke d _ tid => some (d.donorVm, some tid)
  | .bookDebt d _ => some (d.donorVm, none)
  | .beginSnapshot v tid => some (v, some tid)
  | _ => none

/-- A donor's mutex changes only with a revoke or the detection of its donor. -/
theorem donorLock_exec (op : Op) (s : Shared) :
    (op.exec s).donorLock =
      match op.setsDonorLock with
      | some (v, holder) => Function.update s.donorLock v holder
      | none => s.donorLock := by
  cases op with
  | handleReservedAlloc d ids requested granted =>
    simp only [Op.exec]
    split <;> rfl
  | bookkeep d x =>
    simp only [Op.exec]
    split
    · rfl
    · split <;> rfl
  | commitState x =>
    simp only [Op.exec]
    split <;> rfl
  | tryClaim d x =>
    simp only [Op.exec]
    split <;> rfl
  | claimRelease c x call taken =>
    simp only [Op.exec]
    split <;> rfl
  | _ => rfl

/-- Who is inside a section of a donor holds its mutex. -/
def LockInv (s : System) : Prop :=
  ∀ (i : Nat) (t : Task), s.tasks[i]? = some t → ∀ v, t.holdsDonor v →
    s.shared.donorLock v = some i

/-- A return takes no donor's mutex for longer than an operation. -/
theorem ReturnCall.Step.setsDonorLock {tid : Tid} {s : Shared} {r r' : ReturnCall} {op : Op}
    (h : ReturnCall.Step tid s r op r') : op.setsDonorLock = none := by
  cases h with
  | release _ hr => cases hr <;> rfl
  | giveBack _ hg => cases hg <;> rfl
  | _ => rfl

/-- A step takes a free mutex, or gives up the one the thread holds, or leaves
the mutexes alone and does not enter a section. -/
theorem Task.Step.donorLock {tid : Tid} {s : Shared} {t t' : Task} {op : Op}
    {started : List Task} (h : Task.Step tid s t op t' started) :
    (∃ v, op.setsDonorLock = some (v, some tid) ∧ s.donorLock v = none ∧
      ∀ w, t'.holdsDonor w → w = v) ∨
    (∃ v, op.setsDonorLock = some (v, none) ∧ t.holdsDonor v ∧ ∀ w, ¬ t'.holdsDonor w) ∨
    (op.setsDonorLock = none ∧ ∀ w, t'.holdsDonor w → t.holdsDonor w) := by
  cases h with
  | events hl => cases hl <;> exact Or.inr (Or.inr ⟨rfl, nofun⟩)
  | request hq =>
    refine Or.inr (Or.inr ⟨?_, nofun⟩)
    cases hq with
    | allocate hc =>
      cases hc with
      | giveBack hg => cases hg <;> rfl
      | _ => rfl
    | drop hr => cases hr <;> rfl
    | returnDead hr => exact hr.setsDonorLock
    | returnAll hr => exact hr.setsDonorLock
    | _ => rfl
  | revoke hv =>
    cases hv with
    | enter _ hFree _ => exact Or.inl ⟨_, rfl, hFree, fun w hw => hw.symm⟩
    | enough _ => exact Or.inr (Or.inl ⟨_, rfl, rfl, nofun⟩)
    | claim _ _ => exact Or.inr (Or.inr ⟨rfl, fun w hw => hw⟩)
    | pass _ => exact Or.inr (Or.inr ⟨rfl, fun w hw => hw⟩)
    | giveBack hr => exact Or.inr (Or.inr ⟨hr.setsDonorLock, nofun⟩)
    | _ => exact Or.inr (Or.inr ⟨rfl, nofun⟩)
  | detection hl =>
    cases hl with
    | snapshot hFree => exact Or.inl ⟨_, rfl, hFree, fun w hw => hw.symm⟩
    | collected => exact Or.inr (Or.inl ⟨_, rfl, rfl, nofun⟩)
    | collect _ => exact Or.inr (Or.inr ⟨rfl, fun w hw => hw⟩)
    | passOver _ => exact Or.inr (Or.inr ⟨rfl, fun w hw => hw⟩)
    | consumerReturn hr => exact Or.inr (Or.inr ⟨hr.setsDonorLock, nofun⟩)
    | donorReturn hr => exact Or.inr (Or.inr ⟨hr.setsDonorLock, nofun⟩)
    | _ => exact Or.inr (Or.inr ⟨rfl, nofun⟩)

/-- A thread starts outside all donors' mutexes. -/
theorem Task.Step.not_holdsDonor_started {tid : Tid} {s : Shared} {t t' : Task} {op : Op}
    {started : List Task} (h : Task.Step tid s t op t' started) {u : Task} (hu : u ∈ started)
    (w : VmId) : ¬ u.holdsDonor w := by
  cases h with
  | events hl =>
    obtain ⟨v, hv, rfl⟩ := List.mem_map.mp hu
    cases hl with
    | revokeEvent _ _ =>
      rw [List.mem_singleton.mp hv]
      exact fun h => h
    | _ => cases hv
  | _ => cases hu

/-- Who holds a donor's mutex is the thread that the mutex names. -/
theorem LockInv.move {s s' : System} {op : Op} (h : LockInv s)
    (hm : orchestrator.Move s op s') : LockInv s' := by
  refine forall_tasks_ne (J := fun i s t => ∀ v, t.holdsDonor v → s.donorLock v = some i) hm
    (fun i t t' started ht hs => ?_) (fun started hs => ?_)
  · refine ⟨fun w hw => ?_, fun j u hu w hw => absurd hw (hs.not_holdsDonor_started hu w),
      fun j u hne hu w hw => ?_⟩
    · rw [donorLock_exec]
      rcases hs.donorLock with ⟨v, hop, -, hOnly⟩ | ⟨v, hop, -, hNone⟩ | ⟨hop, hKeep⟩
      · rw [hop, hOnly w hw]
        exact Function.update_self ..
      · exact absurd hw (hNone w)
      · rw [hop]
        exact h i t ht w (hKeep w hw)
    · -- another thread inside a section holds its mutex, so this step is not about it
      have hOld := h j u hu w hw
      rw [donorLock_exec]
      rcases hs.donorLock with ⟨v, hop, hFree, -⟩ | ⟨v, hop, hHolds, -⟩ | ⟨hop, -⟩
      · have hwv : w ≠ v := by
          rintro rfl
          rw [hFree] at hOld
          cases hOld
        rw [hop]
        exact (Function.update_of_ne hwv ..).trans hOld
      · have hwv : w ≠ v := by
          rintro rfl
          exact hne (Option.some.inj (hOld.symm.trans (h i t ht w hHolds)))
        rw [hop]
        exact (Function.update_of_ne hwv ..).trans hOld
      · rw [hop]
        exact hOld
  · have hOp : op.setsDonorLock = none := by cases hs <;> rfl
    refine ⟨fun j u hu w hw => ?_, fun j u hu w hw => ?_⟩
    · cases hs with
      | request =>
        rw [List.mem_singleton.mp hu] at hw
        exact hw.elim
      | _ => cases hu
    · rw [donorLock_exec, hOp]
      exact h j u hu w hw

theorem lockInv_init (vm : VmId → Vm) (donor : VmId → DonorState) :
    LockInv (initSystem vm donor) := by
  intro i t ht v hv
  have hMem := List.mem_of_getElem? ht
  simp only [initSystem, List.mem_cons, List.not_mem_nil, or_false] at hMem
  rcases hMem with rfl | rfl <;> exact hv.elim

end EphMemory.Orchestrator
