import EphMemory.Orchestrator.DonorExit
import EphMemory.Orchestrator.Rounds

/-!
# Orchestrator — socket paths that are used again

A VM is known by the path of its socket, and a path is free again as soon as
its VM is out of the list. `remove_vms` marks the VMs it took out one after the
other, each before it releases what the VM holds.

* `LifeMove` — who comes and goes with a step;
* `LifeInv` — a registered VM is in the list, waits to be marked or has exited,
  and what waits is not in the list;
* `one_vm_per_path` — of the VMs registered at a path at most one has not
  exited, none in the list has, and `exited` is set once.
-/

namespace EphMemory.Orchestrator

open EphMemory.Lib

-- ---------------------------------------------------------------------------
-- Coming and going
-- ---------------------------------------------------------------------------

/-- The VMs a removal has taken out of the list and not yet marked. -/
def Detection.waiting : Detection → List VmId
  | .idle => []
  | .removing vms => vms
  | .consumerLoop _ vms => vms
  | .consumerReturn _ _ vms => vms
  | .donorEnter _ vms => vms
  | .donorCollect _ _ _ vms => vms
  | .donorReturn _ _ vms => vms

/-- Those of the detection thread, task 1. -/
def waiting (s : System) : List VmId :=
  match s.tasks[1]? with
  | some (Task.detection l) => l.waiting
  | _ => []

/-- The detection thread is task 1, and no other task is one. -/
structure Sole (s : System) : Prop where
  detector : ∃ l, s.tasks[1]? = some (.detection l)
  sole : ∀ (i : Nat) l, s.tasks[i]? = some (.detection l) → i = 1

/-- The list and the marks, while `vms` wait to be marked. -/
structure LifeOk (s : Shared) (vms : List VmId) : Prop where
  listed : ∀ p v, s.vmList.get? p = some v →
    s.pathOf v = p ∧ v ∈ s.registered ∧ s.exited v = false
  waits : ∀ v ∈ vms, v ∈ s.registered ∧ s.exited v = false ∧ s.vmList.get? (s.pathOf v) = none
  distinct : (vms.map s.pathOf).Nodup
  alive : ∀ v ∈ s.registered, s.exited v = false →
    s.vmList.get? (s.pathOf v) = some v ∨ v ∈ vms
  left : ∀ v, s.exited v = true → v ∈ s.registered

structure LifeInv (s : System) : Prop where
  sole : Sole s
  life : LifeOk s.shared (waiting s)

/-- Operations that leave the list and the marks alone. -/
def Op.settled : Op → Bool
  | .register _ | .unregister _ | .setExited _ => false
  | _ => true

/-- A settled operation leaves the VM list, the registrations and the exits alone. -/
theorem settled_exec {op : Op} (h : op.settled = true) (s : Shared) :
    (op.exec s).vmList = s.vmList ∧ (op.exec s).registered = s.registered ∧
      (op.exec s).exited = s.exited := by
  cases op with
  | register v => cases h
  | unregister paths => cases h
  | setExited v => cases h
  | handleReservedAlloc d ids requested granted =>
    simp only [Op.exec]
    split <;> exact ⟨rfl, rfl, rfl⟩
  | bookkeep d x =>
    simp only [Op.exec]
    split
    · exact ⟨rfl, rfl, rfl⟩
    · split <;> exact ⟨rfl, rfl, rfl⟩
  | commitState x =>
    simp only [Op.exec]
    split <;> exact ⟨rfl, rfl, rfl⟩
  | tryClaim d x =>
    simp only [Op.exec]
    split <;> exact ⟨rfl, rfl, rfl⟩
  | claimRelease c x call taken =>
    simp only [Op.exec]
    split <;> exact ⟨rfl, rfl, rfl⟩
  | _ => exact ⟨rfl, rfl, rfl⟩

/-- Only the detection changes them. -/
theorem Op.settled_of_performer {op : Op} (h : op.performer ≠ .detection) : op.settled = true := by
  cases op with
  | register v => exact absurd rfl h
  | unregister paths => exact absurd rfl h
  | setExited v => exact absurd rfl h
  | _ => rfl

/-- What a move does to the list, the marks and the VMs that wait. -/
inductive LifeMove (s : System) : Op → List VmId → Prop
  | settled {op : Op} : op.settled = true → LifeMove s op (waiting s)
  | register {v : VmId} :
      v ∉ s.shared.registered → s.shared.vmList.get? (s.shared.pathOf v) = none →
      waiting s = [] → LifeMove s (.register v) []
  | unregister {paths : List SocketPath} :
      waiting s = [] →
      LifeMove s (.unregister paths) (paths.eraseDups.filterMap s.shared.vmList.get?)
  | setExited {v : VmId} {vms : List VmId} :
      waiting s = v :: vms → LifeMove s (.setExited v) vms

/-- A VM is registered only at a path that is free. -/
theorem register_free {tid : Tid} {s : Shared} {t t' : Task} {ch : Choice} {v : VmId}
    {started : List Task} (h : t.next tid s ch = some (.register v, t', started)) :
    s.vmList.get? (s.pathOf v) = none := by
  obtain ⟨l, l', rfl, rfl, hStep⟩ := (Task.step_of_next h).ofDetection rfl
  unfold Task.next at h
  simp only at h
  split at h <;> cases h
  rename_i hn
  unfold Detection.next at hn
  cases hStep with
  | register hNew =>
    simp only at hn
    split at hn
    · split at hn
      · split at hn <;> cases hn
        rename_i hFree
        by_contra hSome
        exact hFree (Or.inl (Option.ne_none_iff_isSome.mp hSome))
      · cases hn
      · cases hn
    · cases hn
  | consumerReturn hr => cases hr with
    | release _ hr => cases hr
    | giveBack _ hg => cases hg
  | donorReturn hr => cases hr with
    | release _ hr => cases hr
    | giveBack _ hg => cases hg

/-- The VMs that wait are those of the one detection. -/
theorem waiting_eq {s : System} {l : Detection} (h : s.tasks[1]? = some (.detection l)) :
    waiting s = l.waiting := by
  rw [waiting, h]

/-- A thread stays of its kind; only a request or a revoke is started. -/
theorem Task.Step.kind {tid : Tid} {s : Shared} {t t' : Task} {op : Op} {started : List Task}
    (h : Task.Step tid s t op t' started) :
    ((∃ l l', t = .detection l ∧ t' = .detection l' ∧ Detection.Step tid s l op l') ∨
      (op.settled = true ∧ (∀ l, t ≠ .detection l) ∧ ∀ l, t' ≠ .detection l)) ∧
    ∀ l, .detection l ∉ started := by
  have hOf : op.performer ≠ .detection → op.settled = true := Op.settled_of_performer
  cases h with
  | events hl =>
    refine ⟨Or.inr ⟨hOf ?_, by simp, by simp⟩, by simp⟩
    rw [hl.performer]
    simp
  | detection hl => exact ⟨Or.inl ⟨_, _, rfl, rfl, hl⟩, by simp⟩
  | request hq =>
    refine ⟨Or.inr ⟨hOf ?_, by simp, by simp⟩, by simp⟩
    rcases hq.performer with h | h | ⟨_, _, _, -, -, -, hc⟩
    · simp [h]
    · simp [h]
    · rcases hc.performer with h | h <;> simp [h]
  | revoke hv =>
    refine ⟨Or.inr ⟨hOf ?_, by simp, by simp⟩, by simp⟩
    rcases hv.performer with h | h <;> simp [h]

/-- From outside comes no operation of the detection, and no second detection. -/
theorem OutsideStep.kind {s : Shared} {op : Op} {started : List Task}
    (h : OutsideStep s op started) : op.settled = true ∧ ∀ l, .detection l ∉ started := by
  cases h <;> exact ⟨rfl, by simp⟩

/-- A step of the detection registers, lists or removes one VM, or none. -/
theorem Detection.Step.lifeMove {s : System} {tid : Tid} {l l' : Detection} {op : Op}
    (h : Detection.Step tid s.shared l op l') (hl : s.tasks[1]? = some (.detection l))
    (hFree : ∀ v, op = .register v → s.shared.vmList.get? (s.shared.pathOf v) = none) :
    LifeMove s op l'.waiting := by
  have hWaiting := waiting_eq hl
  have hSettled : op.settled = true → l'.waiting = l.waiting → LifeMove s op l'.waiting := by
    intro hOp hSame
    rw [hSame, ← hWaiting]
    exact .settled hOp
  cases h with
  | register hNew => exact .register hNew (hFree _ rfl) hWaiting
  | remove => exact .unregister hWaiting
  | exitConsumer => exact .setExited hWaiting
  | exitDonor _ => exact .setExited hWaiting
  | consumerReturn hr =>
    refine hSettled (Op.settled_of_performer ?_) rfl
    rw [hr.performer]
    simp
  | donorReturn hr =>
    refine hSettled (Op.settled_of_performer ?_) rfl
    rw [hr.performer]
    simp
  | _ => exact hSettled rfl rfl

/-- The detection stays the only one. -/
theorem Sole.move {s s' : System} {op : Op} (h : Sole s) (hm : orchestrator.Move s op s') :
    Sole s' ∧ LifeMove s op (waiting s') := by
  obtain ⟨l₁, hl₁⟩ := h.detector
  cases hm with
  | @task i t t' ch started ht hn =>
    have hStep := Task.step_of_next hn
    obtain ⟨hKind, hStarted⟩ := hStep.kind
    rcases hKind with ⟨l, l', rfl, rfl, hDet⟩ | ⟨hOp, hNot, hNot'⟩
    · cases h.sole i l ht
      cases hl₁.symm.trans ht
      have hNew : (s.tasks.set 1 (.detection l') ++ started)[1]? = some (.detection l') :=
        Machine.getElem?_set_append_self ht
      refine ⟨⟨⟨l', hNew⟩, fun j m hj => ?_⟩, ?_⟩
      · rcases Machine.getElem?_set_append hj with ⟨rfl, -⟩ | hj | hj
        · rfl
        · exact h.sole j m hj
        · exact absurd hj (hStarted m)
      · rw [waiting_eq hNew]
        exact hDet.lifeMove ht fun v hv => by
          subst hv
          have hNext : Task.next 1 s.shared (.detection l₁) ch =
            some (.register v, .detection l', started) := hn
          exact register_free hNext
    · have hi : i ≠ 1 := by
        rintro rfl
        exact hNot l₁ (Option.some.inj (ht.symm.trans hl₁))
      have hNew : (s.tasks.set i t' ++ started)[1]? = some (.detection l₁) :=
        Machine.getElem?_set_append_ne hi hl₁
      refine ⟨⟨⟨l₁, hNew⟩, fun j m hj => ?_⟩, ?_⟩
      · rcases Machine.getElem?_set_append hj with ⟨-, heq⟩ | hj | hj
        · exact absurd heq.symm (hNot' m)
        · exact h.sole j m hj
        · exact absurd hj (hStarted m)
      · rw [waiting_eq hNew, ← waiting_eq hl₁]
        exact .settled hOp
  | @outside started hs =>
    obtain ⟨hOp, hStarted⟩ := (outsideStep_of_outside hs).kind
    have hLt := (List.getElem?_eq_some_iff.mp hl₁).1
    have hNew : (s.tasks ++ started)[1]? = some (.detection l₁) := by
      rw [List.getElem?_append_left hLt, hl₁]
    refine ⟨⟨⟨l₁, hNew⟩, fun j m hj => ?_⟩, ?_⟩
    · rcases Nat.lt_or_ge j s.tasks.length with hLt | hGe
      · rw [List.getElem?_append_left hLt] at hj
        exact h.sole j m hj
      · rw [List.getElem?_append_right hGe] at hj
        exact absurd (List.mem_of_getElem? hj) (hStarted m)
    · rw [waiting_eq hNew, ← waiting_eq hl₁]
      exact .settled hOp

-- ---------------------------------------------------------------------------
-- One VM a path
-- ---------------------------------------------------------------------------

theorem nodup_eraseDups (paths : List SocketPath) : paths.eraseDups.Nodup := by
  generalize hn : paths.length = n
  induction n using Nat.strongRecOn generalizing paths with
  | ind n ih =>
    cases paths with
    | nil => exact List.nodup_nil
    | cons p rest =>
      rw [List.eraseDups_cons, List.nodup_cons]
      refine ⟨fun hp => ?_, ih _ ?_ _ rfl⟩
      · have hNe := (List.mem_filter.mp (List.mem_eraseDups.mp hp)).2
        simp at hNe
      · rw [← hn, List.length_cons]
        exact Nat.lt_succ_of_le (List.length_filter_le _ _)

/-- The VMs found under distinct paths have distinct paths. -/
theorem nodup_found {s : Shared} (h : s.ListKeyed) {paths : List SocketPath} (hPaths : paths.Nodup) :
    ((paths.filterMap s.vmList.get?).map s.pathOf).Nodup := by
  have hSub : ((paths.filterMap s.vmList.get?).map s.pathOf).Sublist paths := by
    clear hPaths
    induction paths with
    | nil => exact List.Sublist.refl _
    | cons p rest ih =>
      cases hp : s.vmList.get? p with
      | none =>
        rw [List.filterMap_cons_none hp]
        exact ih.cons p
      | some v =>
        rw [List.filterMap_cons_some hp, List.map_cons, h p v hp]
        exact ih.cons_cons p
  exact hSub.nodup hPaths

/-- A VM is listed under its own path. -/
theorem LifeOk.keyed {s : Shared} {vms : List VmId} (h : LifeOk s vms) : s.ListKeyed :=
  fun p v hv => (h.listed p v hv).1

/-- Of the VMs registered at a path at most one has not exited. -/
theorem LifeOk.unique {s : Shared} {vms : List VmId} (h : LifeOk s vms) {v w : VmId}
    (hv : v ∈ s.registered) (hw : w ∈ s.registered) (hvLives : s.exited v = false)
    (hwLives : s.exited w = false) (hPath : s.pathOf v = s.pathOf w) : v = w := by
  rcases h.alive v hv hvLives with hvListed | hvWaits
  · rcases h.alive w hw hwLives with hwListed | hwWaits
    · rw [hPath, hwListed] at hvListed
      exact (Option.some.inj hvListed).symm
    · rw [hPath, (h.waits w hwWaits).2.2] at hvListed
      cases hvListed
  · rcases h.alive w hw hwLives with hwListed | hwWaits
    · rw [← hPath, (h.waits v hvWaits).2.2] at hwListed
      cases hwListed
    · exact List.inj_on_of_nodup_map h.distinct hvWaits hwWaits hPath

/-- Registering, listing and removing keep one live VM a path. -/
theorem LifeOk.exec {s : System} {op : Op} {vms : List VmId} (h : LifeOk s.shared (waiting s))
    (hMove : LifeMove s op vms) : LifeOk (op.exec s.shared) vms := by
  have hPath := pathOf_exec op s.shared
  cases hMove with
  | settled hOp =>
    obtain ⟨hList, hRegistered, hExited⟩ := settled_exec hOp s.shared
    refine ⟨?_, ?_, ?_, ?_, ?_⟩ <;> simp only [hList, hRegistered, hExited, hPath]
    · exact h.listed
    · exact h.waits
    · exact h.distinct
    · exact h.alive
    · exact h.left
  | @register v hNew hFree hNone =>
    have hGet : ∀ p, ((Op.register v).exec s.shared).vmList.get? p =
        if p = s.shared.pathOf v then some v else s.shared.vmList.get? p := fun p => by
      simp only [Op.exec, OrdMap.get?_insert]
      rfl
    refine ⟨fun p w hw => ?_, fun w hw => absurd hw List.not_mem_nil, List.nodup_nil,
      fun w hw hwLives => Or.inl ?_, fun w hw => List.mem_cons_of_mem _ (h.left w hw)⟩
    · rw [hGet] at hw
      rw [hPath]
      split at hw
      · rename_i hp
        cases hw
        refine ⟨hp.symm, List.mem_cons_self .., ?_⟩
        exact Bool.eq_false_of_not_eq_true fun hLeft => hNew (h.left v hLeft)
      · obtain ⟨h1, h2, h3⟩ := h.listed p w hw
        exact ⟨h1, List.mem_cons_of_mem _ h2, h3⟩
    · rw [hPath, hGet]
      rcases List.mem_cons.mp hw with rfl | hw
      · rw [if_pos rfl]
      · have hListed := (h.alive w hw hwLives).resolve_right (by rw [hNone]; exact List.not_mem_nil)
        rw [if_neg]
        · exact hListed
        · intro hSame
          rw [hSame, hFree] at hListed
          cases hListed
  | @unregister paths hNone =>
    have hGet : ∀ p, ((Op.unregister paths).exec s.shared).vmList.get? p =
        if p ∈ paths then none else s.shared.vmList.get? p := fun p => by
      simp only [Op.exec, OrdMap.get?_eraseAll]
    refine ⟨fun p w hw => ?_, fun w hw => ?_, ?_, fun w hw hwLives => ?_, h.left⟩
    · rw [hGet] at hw
      split at hw
      · cases hw
      · exact h.listed p w hw
    · obtain ⟨p, hp, hFound⟩ := List.mem_filterMap.mp hw
      obtain ⟨hKey, hRegistered, hLives⟩ := h.listed p w hFound
      refine ⟨hRegistered, hLives, ?_⟩
      rw [hPath, hGet, hKey, if_pos (List.mem_eraseDups.mp hp)]
    · rw [hPath]
      exact nodup_found h.keyed (nodup_eraseDups _)
    · rw [hPath, hGet]
      have hListed := (h.alive w hw hwLives).resolve_right (by rw [hNone]; exact List.not_mem_nil)
      by_cases hp : s.shared.pathOf w ∈ paths
      · exact Or.inr (List.mem_filterMap.mpr ⟨_, List.mem_eraseDups.mpr hp, hListed⟩)
      · rw [if_neg hp]
        exact Or.inl hListed
  | @setExited v _ hWaits =>
    have hFirst := h.waits v (by rw [hWaits]; exact List.mem_cons_self ..)
    have hDistinct := h.distinct
    rw [hWaits, List.map_cons, List.nodup_cons] at hDistinct
    have hExited : ∀ w, ((Op.setExited v).exec s.shared).exited w =
        if w = v then true else s.shared.exited w := fun w => by
      simp only [Op.exec, Function.update_apply]
    refine ⟨fun p w hw => ?_, fun w hw => ?_, ?_, fun w hw hwLives => ?_, fun w hw => ?_⟩
    · obtain ⟨h1, h2, h3⟩ := h.listed p w hw
      refine ⟨h1, h2, ?_⟩
      rw [hExited, if_neg]
      · exact h3
      · rintro rfl
        have hGone := hFirst.2.2
        rw [h1] at hGone
        exact absurd (hGone.symm.trans hw) (by simp)
    · obtain ⟨h1, h2, h3⟩ := h.waits w (by rw [hWaits]; exact List.mem_cons_of_mem _ hw)
      refine ⟨h1, ?_, h3⟩
      rw [hExited, if_neg]
      · exact h2
      · rintro rfl
        exact hDistinct.1 (List.mem_map_of_mem hw)
    · exact hDistinct.2
    · rw [hExited] at hwLives
      split at hwLives
      · cases hwLives
      · rename_i hne
        refine (h.alive w hw hwLives).imp_right fun hMem => ?_
        rw [hWaits] at hMem
        exact (List.mem_cons.mp hMem).resolve_left hne
    · rw [hExited] at hw
      split at hw
      · rename_i heq
        rw [heq]
        exact hFirst.1
      · exact h.left w hw

/-- Whoever moves, the invariant holds on. -/
theorem LifeInv.move {s s' : System} {op : Op} (h : LifeInv s) (hm : orchestrator.Move s op s') :
    LifeInv s' := by
  obtain ⟨hSole, hLife⟩ := h.sole.move hm
  refine ⟨hSole, ?_⟩
  rw [hm.shared_eq]
  exact h.life.exec hLife

theorem lifeInv_init (vm : VmId → Vm) (donor : VmId → DonorState) : LifeInv (initSystem vm donor) where
  sole :=
    { detector := ⟨.idle, rfl⟩
      sole := fun i l hi => by
        match i with
        | 0 => cases hi
        | 1 => rfl
        | i + 2 => cases hi }
  life :=
    { listed := fun p v hv => by
        simp [initSystem, initShared] at hv
      waits := fun v hv => absurd hv List.not_mem_nil
      distinct := List.nodup_nil
      alive := fun v hv => absurd hv List.not_mem_nil
      left := fun v hv => by cases hv }

theorem Reachable.lifeInv {s : System} (h : Reachable s) : LifeInv s := by
  obtain ⟨vm, donor, -, hRun⟩ := h
  exact hRun.invariant (fun _ _ _ hInv hm _ => hInv.move hm) (lifeInv_init vm donor)

/-- A path has one VM at a time: of the VMs that were ever registered at it at
most one has not exited, the one in the list among them. So a VM that
`remove_vms` is about to mark is not marked yet, and its `unwrap` is safe. -/
theorem one_vm_per_path {s : System} (h : Reachable s) :
    (∀ v ∈ s.shared.registered, ∀ w ∈ s.shared.registered, s.shared.exited v = false →
      s.shared.exited w = false → s.shared.pathOf v = s.shared.pathOf w → v = w) ∧
    (∀ p v, s.shared.vmList.get? p = some v →
      s.shared.pathOf v = p ∧ v ∈ s.shared.registered ∧ s.shared.exited v = false) ∧
    ∀ v vms, .detection (.removing (v :: vms)) ∈ s.tasks →
      s.shared.exited v = false ∧ s.shared.vmList.get? (s.shared.pathOf v) = none := by
  have hInv := h.lifeInv
  refine ⟨fun v hv w hw hvLives hwLives hPath => ?_, hInv.life.listed, fun v vms ht => ?_⟩
  · exact hInv.life.unique hv hw hvLives hwLives hPath
  · obtain ⟨i, hi⟩ := List.mem_iff_getElem?.mp ht
    cases hInv.sole.sole i _ hi
    have hWaits : v ∈ waiting s := by
      rw [waiting_eq hi]
      exact List.mem_cons_self ..
    exact (hInv.life.waits v hWaits).2

/-- VMs at one path. -/
def rebornVm : VmId → Vm := fun _ => ⟨1, none⟩

/-- VM 3 appears at the path, leaves, and VM 5 appears there. -/
def reborn : List (Label Op Choice) :=
  [.task 1 (.register 3), .task 1 (.remove [1]), .task 1 .go, .task 1 .go, .task 1 .go,
    .task 1 (.register 5)]

def rebornAfter : System :=
  (orchestrator.run (initSystem rebornVm demoDonor) reborn).getD (initSystem rebornVm demoDonor)

theorem one_vm_per_path_reborn :
    rebornAfter.shared.registered = [5, 3] ∧
      rebornAfter.shared.pathOf 5 = rebornAfter.shared.pathOf 3 ∧
      ∀ v ∈ rebornAfter.shared.registered, ∀ w ∈ rebornAfter.shared.registered,
        rebornAfter.shared.exited v = false → rebornAfter.shared.exited w = false →
        rebornAfter.shared.pathOf v = rebornAfter.shared.pathOf w → v = w := by
  have hRun : (orchestrator.run (initSystem rebornVm demoDonor) reborn).isSome = true := by
    decide +kernel
  exact ⟨by decide +kernel, by decide +kernel,
    (one_vm_per_path ⟨rebornVm, demoDonor, demoDonor_fresh, Machine.steps_after hRun⟩).1⟩

end EphMemory.Orchestrator
