import EphMemory.Orchestrator.ExactlyOnce
import EphMemory.Orchestrator.FullGrants
import EphMemory.Orchestrator.Paths

/-!
# Orchestrator — grouping by path

`return_eph_memory_from_consumer` sorts what it is given by the socket paths of
the consumers and donors and looks the VMs up in a map from paths. A path can
get a new VM while it does so. Still no group mixes two VMs: a VM is grouped
only as long as it has not exited, and its allocation was there before.

* `ReturnCall.vms` — the VMs a return has grouped allocations under;
* `DonorsRegistered` — what is backed belongs to VMs that were registered;
* `ReturnCall.Apart` — what a request or a revoke still has to group fits the
  groups it has; `ReturnCall.Present` — the groups of a removal are of VMs that
  are there;
* `groups_by_path` — no two of the grouped VMs share a path, in any run.
-/

namespace EphMemory.Orchestrator

open EphMemory.Lib

/-- The VMs a return has grouped allocations under: the keys of `vm_map`. -/
def ReturnCall.vms (r : ReturnCall) : List VmId :=
  match r.pc with
  | .organize _ cons dons => cons.map Prod.fst ++ dons.map fun g => g.1.donorVm
  | .take _ _ cons dons => cons.map Prod.fst ++ dons.map fun g => g.1.donorVm
  | .check _ _ _ cons dons => cons.map Prod.fst ++ dons.map fun g => g.1.donorVm
  | .release calls dons => calls.map ReleaseCall.consumer ++ dons.map fun g => g.1.donorVm
  | .giveBack calls => calls.map fun g => g.donor.donorVm
  | .done => []

/-- The allocations it still groups. -/
def ReturnCall.ungrouped (r : ReturnCall) : List AllocId :=
  match r.pc with
  | .organize todo _ _ => todo
  | .take x todo _ _ => x :: todo
  | .check x _ todo _ _ => x :: todo
  | _ => []

/-- The consumer or the donor of the allocation. -/
def Shared.Party (s : Shared) (x : AllocId) (v : VmId) : Prop :=
  (s.alloc x).consumerVm = v ∨ s.BackedBy v x

-- ---------------------------------------------------------------------------
-- What a thread may give an allocation
-- ---------------------------------------------------------------------------

/-- The donors a grant looks at or deals with. -/
def AllocCall.donors (a : AllocCall) : List VmId :=
  match a.pc with
  | .scan vms => vms
  | .donate d _ => [d.donorVm]
  | .confirm d _ _ => [d.donorVm]
  | .handBack d _ _ => [d.donorVm]
  | .commit d _ _ => [d.donorVm]
  | .commitState d _ _ _ => [d.donorVm]
  | _ => []

/-- The allocations a request created and has not settled yet. -/
def Request.own (q : Request) : List AllocId :=
  match q.pc with
  | .reserve _ rsvd => rsvd
  | .allocate call rsvd => call.rest ++ rsvd
  | .drop call rsvd => call.allocs ++ rsvd
  | .retain todo kept => todo ++ kept
  | .add rsvd => rsvd
  | .wait rsvd => rsvd
  | .partition todo live dead => todo ++ live ++ dead
  | .returnDead call live => call.allocs ++ live
  | .respond todo live => todo ++ live
  | .returnAll call => call.allocs
  | _ => []

/-- The allocations a thread has seen committed and may return. -/
def Task.backed : Task → List AllocId
  | .request ⟨_, .retain _ kept⟩ => kept
  | .request ⟨_, .add rsvd⟩ => rsvd
  | .request ⟨_, .wait rsvd⟩ => rsvd
  | .request ⟨_, .partition todo live dead⟩ => todo ++ live ++ dead
  | .request ⟨_, .returnDead call live⟩ => call.allocs ++ live
  | .request ⟨_, .respond todo live⟩ => todo ++ live
  | .request ⟨_, .returnAll call⟩ => call.allocs
  | .revoke ⟨_, .select _ claimed _⟩ => claimed
  | .revoke ⟨_, .giveBack call⟩ => call.allocs
  | .detection (.donorCollect _ allocs _ _) => allocs
  | .detection (.donorReturn call _ _) => call.allocs
  | _ => []

/-- A return keeps its argument. -/
theorem ReturnCall.Step.allocs_eq {tid : Tid} {s : Shared} {r r' : ReturnCall} {op : Op}
    (h : ReturnCall.Step tid s r op r') : r'.allocs = r.allocs := by
  cases h <;> rfl

/-- A release keeps its consumer and its allocations. -/
theorem ReleaseCall.Step.given_eq {tid : Tid} {s : Shared} {r r' : ReleaseCall} {op : Op}
    (h : ReleaseCall.Step tid s r op r') : r'.allocs = r.allocs ∧ r'.consumer = r.consumer := by
  cases h <;> exact ⟨rfl, rfl⟩

/-- A grant gets nothing new to back. -/
theorem AllocCall.Step.rest_subset {s : Shared} {a a' : AllocCall} {op : Op}
    (h : AllocCall.Step s a op a') {x : AllocId} (hx : x ∈ a'.rest) : x ∈ a.rest := by
  cases h with
  | setDonor _ => exact List.mem_cons_of_mem _ hx
  | _ => exact hx

/-- A request only ever holds what it has created. -/
theorem Request.Step.own {tid : Tid} {s : Shared} {q q' : Request} {op : Op}
    (h : Request.Step tid s q op q') {x : AllocId} (hx : x ∈ q'.own) :
    x ∈ q.own ∨ ∃ size, op = .reserveMemoryContig q.consumer size ∧ x ∈ s.newIds q.consumer size := by
  have hAfter : ∀ (c : VmId) (live : List AllocId),
      x ∈ Request.own ⟨c, afterDead live⟩ → x ∈ live := by
    intro c live hMem
    unfold afterDead at hMem
    split at hMem
    · cases hMem
    · simpa [Request.own] using hMem
  cases h with
  | @reserve c remaining rsvd _ _ =>
    simp only [Request.own, List.mem_append] at hx
    exact hx.imp_right fun hNew => ⟨remaining, rfl, hNew⟩
  | reserved =>
    left
    simpa [Request.own, AllocCall.start] using hx
  | allocate hc =>
    left
    simp only [Request.own, List.mem_append] at hx ⊢
    exact hx.imp_left hc.rest_subset
  | drop hr =>
    left
    simpa only [Request.own, hr.given_eq.1] using hx
  | allLive =>
    left
    simpa [Request.own] using hAfter _ _ hx
  | returnDead hr =>
    left
    simpa only [Request.own, hr.allocs_eq] using hx
  | returnedDead _ =>
    left
    exact List.mem_append_right _ (hAfter _ _ hx)
  | returnAll hr =>
    left
    simpa only [Request.own, hr.allocs_eq] using hx
  | _ =>
    left
    simp only [Request.own, ReturnCall.start, List.mem_append, List.mem_cons, List.not_mem_nil,
      or_false, false_or] at hx ⊢ <;> tauto

/-- What a thread relies on as backed it has seen committed. -/
theorem Task.Step.backed {tid : Tid} {s : Shared} {t t' : Task} {op : Op} {started : List Task}
    (h : Task.Step tid s t op t' started) {x : AllocId} (hx : x ∈ t'.backed) :
    x ∈ t.backed ∨ (s.alloc x).state = .committed := by
  have hAfter : ∀ (c : VmId) (live : List AllocId),
      x ∈ (Task.request ⟨c, Request.afterDead live⟩).backed → x ∈ live := by
    intro c live hMem
    unfold Request.afterDead at hMem
    split at hMem
    · cases hMem
    · simpa [Task.backed] using hMem
  cases h with
  | events _ => cases hx
  | detection hl =>
    cases hl with
    | collect hState =>
      rcases List.mem_append.mp hx with hx | hx
      · exact Or.inl hx
      · rw [List.mem_singleton.mp hx]
        exact Or.inr hState
    | passOver _ => exact Or.inl hx
    | collected => exact Or.inl hx
    | donorReturn hr =>
      left
      simpa only [Task.backed, hr.allocs_eq] using hx
    | _ => cases hx
  | request hq =>
    cases hq with
    | keep hState _ =>
      rcases List.mem_append.mp hx with hx | hx
      · exact Or.inl hx
      · rw [List.mem_singleton.mp hx]
        exact Or.inr hState
    | skip _ _ => exact Or.inl hx
    | skipOther _ => exact Or.inl hx
    | kept => exact Or.inl hx
    | added => exact Or.inl hx
    | addFailed => exact Or.inl hx
    | waited =>
      left
      simpa [Task.backed] using hx
    | live _ =>
      left
      simp only [Task.backed, List.mem_append, List.mem_cons] at hx ⊢
      tauto
    | dead _ =>
      left
      simp only [Task.backed, List.mem_append, List.mem_cons] at hx ⊢
      tauto
    | allLive =>
      left
      simpa [Task.backed] using hAfter _ _ hx
    | someDead =>
      left
      simp only [Task.backed, ReturnCall.start, List.mem_append] at hx ⊢
      tauto
    | returnDead hr =>
      left
      simpa only [Task.backed, hr.allocs_eq] using hx
    | returnedDead _ => exact Or.inl (List.mem_append_right _ (hAfter _ _ hx))
    | respond =>
      left
      simp only [Task.backed, List.mem_append, List.mem_cons] at hx ⊢
      tauto
    | respondFailed => exact Or.inl (List.mem_append_right _ hx)
    | returnAll hr =>
      left
      simpa only [Task.backed, hr.allocs_eq] using hx
    | _ => cases hx
  | revoke hv =>
    cases hv with
    | enough _ => exact Or.inl hx
    | claim _ hState =>
      rcases List.mem_append.mp hx with hx | hx
      · exact Or.inl hx
      · rw [List.mem_singleton.mp hx]
        exact Or.inr hState
    | pass _ => exact Or.inl hx
    | giveBack hr =>
      left
      simpa only [Task.backed, hr.allocs_eq] using hx
    | _ => cases hx

-- ---------------------------------------------------------------------------
-- What is backed belongs to registered VMs
-- ---------------------------------------------------------------------------

/-- The donors a request is dealing with. -/
def Request.donors (q : Request) : List VmId :=
  match q.pc with
  | .allocate call _ => call.donors
  | _ => []

/-- A request works for a registered consumer, on allocations of it, with
registered donors. -/
structure Request.Grounded (s : Shared) (q : Request) : Prop where
  consumer : q.consumer ∈ s.registered
  own : ∀ x ∈ q.own, x < s.nextId ∧ (s.alloc x).consumerVm = q.consumer
  donors : ∀ v ∈ q.donors, v ∈ s.registered

structure Task.Grounded (s : Shared) (t : Task) : Prop where
  request : ∀ q, t = .request q → q.Grounded s
  backed : ∀ x ∈ t.backed, (s.alloc x).donorInfo ≠ none

/-- Whatever is backed belongs to VMs that were registered. -/
def PartiesRegistered (s : Shared) : Prop :=
  ∀ x, (s.alloc x).donorInfo ≠ none → ∀ v, s.Party x v → v ∈ s.registered

structure GroundedInv (s : System) : Prop where
  core : CoreInv s
  life : LifeInv s
  parties : PartiesRegistered s.shared
  tasks : ∀ (i : Nat) (t : Task), s.tasks[i]? = some t → t.Grounded s.shared

theorem mem_registered_exec {s : Shared} {v : VmId} (h : v ∈ s.registered) (op : Op) :
    v ∈ (op.exec s).registered := by
  by_cases hOp : op.settled = true
  · rw [(settled_exec hOp s).2.1]
    exact h
  · cases op with
    | register w => exact List.mem_cons_of_mem _ h
    | unregister paths => exact h
    | setExited w => exact h
    | _ => exact absurd rfl hOp

section Exec

variable {s : System} {op : Op}

/-- An allocation that has its donor keeps both parties. -/
theorem party_exec (h : CoreInv s) {x : AllocId} {v : VmId}
    (hx : (s.shared.alloc x).donorInfo ≠ none) :
    (op.exec s.shared).Party x v ↔ s.shared.Party x v := by
  have hKnown : x < s.shared.nextId := by
    by_contra hNot
    rw [h.untouched x hNot] at hx
    exact hx rfl
  rw [Shared.Party, Shared.Party, ((evolves_exec op s.shared).alloc x hKnown).consumer,
    Shared.BackedBy, EphAllocation.donorVm?, donorVm?_exec h hx]
  rfl

/-- A request gives its own allocations a donor it has asked. -/
theorem Task.Step.setsDonorInfo {tid : Tid} {u : Shared} {t t' : Task} {started : List Task}
    {x : AllocId} {d : DonorAllocation}
    (h : Task.Step tid u t (.setDonorInfo x d) t' started) :
    ∃ q, t = .request q ∧ x ∈ q.own ∧ d.donorVm ∈ q.donors := by
  cases h with
  | events hl => cases hl.performer
  | detection hl => rcases hl.performer with h | h <;> cases h
  | revoke hv => rcases hv.performer with h | h <;> cases h
  | request hq =>
    cases hq with
    | allocate hc =>
      cases hc with
      | setDonor _ => exact ⟨_, rfl, by simp [Request.own], List.mem_singleton_self _⟩
      | giveBack hg => cases hg
    | drop hr => cases hr
    | returnDead hr => cases hr.performer
    | returnAll hr => cases hr.performer

/-- An allocation gets its donor from the grant that commits it. -/
theorem PartiesRegistered.move {s' : System} (h : GroundedInv s)
    (hm : orchestrator.Move s op s') : PartiesRegistered s'.shared := by
  have hShared : s'.shared = op.exec s.shared := hm.shared_eq
  rw [hShared]
  intro x hx v hv
  by_cases hOld : (s.shared.alloc x).donorInfo ≠ none
  · exact mem_registered_exec (h.parties x hOld v ((party_exec h.core hOld).mp hv)) op
  have hNone : (s.shared.alloc x).donorInfo = none := not_not.mp hOld
  have hChange := allocChange_exec op s.shared x
  rw [Shared.Party, Shared.BackedBy] at hv
  generalize (op.exec s.shared).alloc x = a at hChange hx hv
  cases hChange with
  | @donorSet d =>
    refine mem_registered_exec ?_ _
    rcases move_cases hm with ⟨i, t, t', started, ht, hs, -⟩ | ⟨started, hs, -⟩
    · obtain ⟨q, rfl, hMem, hDonor⟩ := hs.setsDonorInfo
      obtain ⟨hConsumer, hOwn, hDonors⟩ := (h.tasks i _ ht).request q rfl
      rcases hv with hv | hv
      · rw [← hv, (hOwn x hMem).2]
        exact hConsumer
      · rw [EphAllocation.donorVm?, hNone] at hv
        cases hv
        exact hDonors _ hDonor
    · cases hs
  | created _ => exact absurd rfl hx
  | _ => exact absurd hNone hx

/-- The threads that do not move keep their ground. -/
theorem Task.Grounded.exec {t : Task} (h : t.Grounded s.shared) (hCore : CoreInv s) :
    t.Grounded (op.exec s.shared) where
  request q hq := by
    obtain ⟨hConsumer, hOwn, hDonors⟩ := h.request q hq
    refine ⟨mem_registered_exec hConsumer op, fun x hx => ?_,
      fun v hv => mem_registered_exec (hDonors v hv) op⟩
    obtain ⟨hLt, hVm⟩ := hOwn x hx
    have hEv := evolves_exec op s.shared
    exact ⟨lt_of_lt_of_le hLt hEv.nextId, (hEv.alloc x hLt).consumer.trans hVm⟩
  backed x hx := by
    rw [donorVm?_exec hCore (h.backed x hx)]
    exact h.backed x hx

/-- A grant turns to the donors in the list. -/
theorem AllocCall.Step.donors_registered {u : Shared} {vms : List VmId} (hLife : LifeOk u vms)
    {a a' : AllocCall} (h : AllocCall.Step u a op a') (ha : ∀ v ∈ a.donors, v ∈ u.registered) :
    ∀ v ∈ a'.donors, v ∈ u.registered := by
  intro v hv
  cases h with
  | look =>
    obtain ⟨p, hp⟩ := OrdMap.mem_values_iff.mp (mem_candidates hLife.keyed hv).1
    exact (hLife.listed p v hp).2.1
  | full => exact ha v (List.mem_cons_of_mem _ hv)
  | reserve _ _ _ _ _ =>
    rw [List.mem_singleton.mp hv]
    exact ha _ (List.mem_cons_self ..)
  | donate => exact ha v hv
  | regionGone _ => exact ha v hv
  | owing _ _ _ => exact ha v hv
  | confirmed _ _ _ _ => exact ha v hv
  | handBack => exact ha v hv
  | setDonor _ => exact ha v hv
  | live _ => exact ha v hv
  | dead _ => exact ha v hv
  | _ => cases hv

/-- What a request holds was reserved for its consumer, and whom it asks was registered. -/
theorem Request.Step.grounded {tid : Tid} {q q' : Request} (h : GroundedInv s)
    (hs : Request.Step tid s.shared q op q') (hq : q.Grounded s.shared) :
    q'.Grounded (op.exec s.shared) := by
  have hEv := evolves_exec op s.shared
  refine ⟨?_, fun x hx => ?_, fun v hv => mem_registered_exec ?_ op⟩
  · rw [hs.consumer_eq]
    exact mem_registered_exec hq.consumer op
  · rw [hs.consumer_eq]
    rcases hs.own hx with hx | ⟨size, rfl, hNew⟩
    · obtain ⟨hLt, hVm⟩ := hq.own x hx
      exact ⟨lt_of_lt_of_le hLt hEv.nextId, (hEv.alloc x hLt).consumer.trans hVm⟩
    · have hIn := Shared.mem_newIds.mp hNew
      refine ⟨hIn.2, ?_⟩
      show ((s.shared.reserveMemoryContig q.consumer size).alloc x).consumerVm = q.consumer
      rw [Shared.reserve_alloc_of_new hIn]
      rfl
  · have hAfter : ∀ (c : VmId) (live : List AllocId),
        v ∉ Request.donors ⟨c, afterDead live⟩ := by
      intro c live hMem
      unfold afterDead at hMem
      split at hMem <;> cases hMem
    cases hs with
    | allocate hc => exact hc.donors_registered h.life.life hq.donors v hv
    | allLive => exact absurd hv (hAfter _ _)
    | returnedDead _ => exact absurd hv (hAfter _ _)
    | _ => cases hv

end Exec

/-- A request is read from a VM that was registered. -/
theorem grounded_started {s : System} {op : Op} {started : List Task} {u : Task}
    (hs : outside s.shared op = some started) (hu : u ∈ started) :
    u.Grounded (op.exec s.shared) := by
  unfold outside at hs
  split at hs
  · split at hs <;> cases hs
    rename_i c size hc
    rw [List.mem_singleton.mp hu]
    refine ⟨fun q hq => ?_, fun x hx => absurd hx List.not_mem_nil⟩
    cases hq
    exact ⟨hc.2.1, fun x hx => absurd hx List.not_mem_nil, fun v hv => absurd hv List.not_mem_nil⟩
  · split at hs <;> cases hs
    cases hu
  · split at hs <;> cases hs
    cases hu
  · cases hs
    cases hu
  · cases hs

/-- Whoever moves, what threads hold stays grounded. -/
theorem GroundedInv.move {s s' : System} {op : Op} (h : GroundedInv s)
    (hm : orchestrator.Move s op s') : GroundedInv s' := by
  refine ⟨h.core.move hm, h.life.move hm, .move h hm, ?_⟩
  refine hm.forall_tasks (J := fun _ u t => t.Grounded u) h.tasks
    (fun i t ch t' started ht hn => ?_) (fun started hs j u hu => ?_)
    (fun j u _ hOld => hOld.exec h.core)
  · have hStep := Task.step_of_next hn
    have hOld := h.tasks i t ht
    refine ⟨⟨fun q' hq' => ?_, fun x hx => ?_⟩, fun j u hu => ?_⟩
    · subst hq'
      obtain ⟨q, rfl, hq⟩ : ∃ q, t = .request q ∧ Request.Step i s.shared q op q' := by
        cases hStep with
        | request hq => exact ⟨_, rfl, hq⟩
      exact hq.grounded h (hOld.request q rfl)
    · have hInfo := (hStep.backed hx).elim (hOld.backed x) h.core.committed_donor
      show ((op.exec s.shared).alloc x).donorInfo ≠ none
      rw [donorVm?_exec h.core hInfo]
      exact hInfo
    · cases hStep with
      | events hl =>
        obtain ⟨v, hv, rfl⟩ := List.mem_map.mp hu
        cases hl with
        | revokeEvent _ _ =>
          rw [List.mem_singleton.mp hv]
          exact ⟨fun q hq => (by cases hq), fun x hx => absurd hx List.not_mem_nil⟩
        | _ => cases hv
      | _ => cases hu
  · exact grounded_started hs hu

theorem groundedInv_init {vm : VmId → Vm} {donor : VmId → DonorState} (hFresh : FreshDonors donor) :
    GroundedInv (initSystem vm donor) where
  core := coreInv_init hFresh
  life := lifeInv_init vm donor
  parties := fun x hx => absurd rfl hx
  tasks := fun i t ht => by
    match i with
    | 0 =>
      cases ht
      exact ⟨fun q hq => (by cases hq), fun x hx => absurd hx List.not_mem_nil⟩
    | 1 =>
      cases ht
      exact ⟨fun q hq => (by cases hq), fun x hx => absurd hx List.not_mem_nil⟩
    | i + 2 => cases ht

-- ---------------------------------------------------------------------------
-- The groups
-- ---------------------------------------------------------------------------

/-- The groups of a return are of registered VMs, no two at one path. -/
structure ReturnCall.Sorted (s : Shared) (r : ReturnCall) : Prop where
  registered : ∀ v ∈ r.vms, v ∈ s.registered
  distinct : ∀ v ∈ r.vms, ∀ w ∈ r.vms, s.pathOf v = s.pathOf w → v = w
  given : ∀ x ∈ r.ungrouped, x ∈ r.allocs
  taken : ∀ x d todo cons dons, r.pc = .check x d todo cons dons → (s.alloc x).donorInfo = some d

/-- Of what is still to be grouped, a VM that has not exited is no other VM at
the path of a group. -/
def ReturnCall.Apart (s : Shared) (r : ReturnCall) : Prop :=
  ∀ v ∈ r.vms, ∀ x ∈ r.ungrouped, ∀ w, s.Party x w →
    s.exited w = true ∨ (s.pathOf v = s.pathOf w → v = w)

/-- Nobody exits while the detection thread groups; what has no donor yet
belongs to the consumer it removes. -/
structure ReturnCall.Present (s : Shared) (r : ReturnCall) : Prop where
  living : ∀ v ∈ r.vms, s.exited v = false
  ahead : ∀ x ∈ r.ungrouped, (s.alloc x).donorInfo ≠ none ∨
    (x < s.nextId ∧ s.exited (s.alloc x).consumerVm = true)

theorem mem_keys_pushGroup {κ α : Type} [DecidableEq κ] {key k : κ} {x : α}
    {groups : List (κ × List α)} (h : k ∈ (pushGroup key x groups).map Prod.fst) :
    k = key ∨ k ∈ groups.map Prod.fst := by
  induction groups with
  | nil => exact Or.inl (List.mem_singleton.mp h)
  | cons g rest ih =>
    obtain ⟨k', xs⟩ := g
    rw [pushGroup] at h
    split at h
    · exact Or.inr h
    · rcases List.mem_cons.mp h with rfl | h
      · exact Or.inr (List.mem_cons_self ..)
      · exact (ih h).imp_right (List.mem_cons_of_mem _)

theorem mem_donors_pushGroup {d : DonorAllocation} {v : VmId} {x : AllocId}
    {groups : List (DonorAllocation × List AllocId)}
    (h : v ∈ (pushGroup d x groups).map fun g => g.1.donorVm) :
    v = d.donorVm ∨ v ∈ groups.map fun g => g.1.donorVm := by
  obtain ⟨g, hg, rfl⟩ := List.mem_map.mp h
  rcases mem_keys_pushGroup (List.mem_map_of_mem (f := Prod.fst) hg) with hKey | hKey
  · exact Or.inl (by rw [hKey])
  · obtain ⟨g', hg', hSame⟩ := List.mem_map.mp hKey
    exact Or.inr (List.mem_map.mpr ⟨g', hg', by rw [hSame]⟩)

theorem mem_map_set {α β : Type} {f : α → β} {l : List α} {i : Nat} {a a' : α} {b : β}
    (ha : l[i]? = some a) (hf : f a' = f a) (hb : b ∈ (l.set i a').map f) : b ∈ l.map f := by
  obtain ⟨c, hc, rfl⟩ := List.mem_map.mp hb
  rcases List.mem_or_eq_of_mem_set hc with hc | rfl
  · exact List.mem_map_of_mem hc
  · rw [hf]
    exact List.mem_map_of_mem (List.mem_of_getElem? ha)

section Step

variable {tid : Tid} {s : System} {op : Op} {r r' : ReturnCall}

/-- A VM is grouped when it has not exited, for an allocation of it. -/
theorem ReturnCall.Step.mem_vms {u : Shared} (h : ReturnCall.Step tid u r op r')
    (hr : r.Sorted u) {v : VmId} (hv : v ∈ r'.vms) :
    v ∈ r.vms ∨ (u.exited v = false ∧ ∃ x ∈ r.ungrouped, u.Party x v) := by
  cases h with
  | @group allocs todo x cons dons hLives =>
    simp only [vms, List.mem_append] at hv ⊢
    rcases hv with hv | hv
    · rcases mem_keys_pushGroup hv with rfl | hv
      · exact Or.inr ⟨hLives, x, List.mem_cons_self .., Or.inl rfl⟩
      · exact Or.inl (Or.inl hv)
    · exact Or.inl (Or.inr hv)
  | consumerGone _ => exact Or.inl hv
  | organized =>
    left
    simpa [vms] using hv
  | notTaken _ => exact Or.inl hv
  | taken _ => exact Or.inl hv
  | @donorThere allocs todo x cons dons d hLives =>
    simp only [vms, List.mem_append] at hv ⊢
    rcases hv with hv | hv
    · exact Or.inl (Or.inl hv)
    · rcases mem_donors_pushGroup hv with rfl | hv
      · refine Or.inr ⟨hLives, x, List.mem_cons_self .., Or.inr ?_⟩
        rw [Shared.BackedBy, EphAllocation.donorVm?, hr.taken _ _ _ _ _ rfl]
        rfl
      · exact Or.inl (Or.inr hv)
  | donorGone _ => exact Or.inl hv
  | release hc hStep =>
    left
    simp only [vms, List.mem_append] at hv ⊢
    exact hv.imp_left (mem_map_set hc hStep.given_eq.2)
  | released _ =>
    left
    simp only [vms, List.map_map] at hv ⊢
    exact List.mem_append_right _ hv
  | giveBack hg hStep =>
    left
    refine mem_map_set hg ?_ hv
    cases hStep <;> rfl
  | returned _ => cases hv

/-- What is to be grouped only becomes less. -/
theorem ReturnCall.Step.ungrouped {u : Shared} (h : ReturnCall.Step tid u r op r') {x : AllocId}
    (hx : x ∈ r'.ungrouped) : x ∈ r.ungrouped := by
  cases h with
  | group _ => exact hx
  | consumerGone _ => exact hx
  | notTaken _ => exact List.mem_cons_of_mem _ hx
  | taken _ => exact hx
  | donorThere _ => exact List.mem_cons_of_mem _ hx
  | donorGone _ => exact List.mem_cons_of_mem _ hx
  | _ => cases hx

/-- What a return has taken had the donor it was taken for. -/
theorem ReturnCall.Step.check_taken {u : Shared} (h : ReturnCall.Step tid u r op r') {x : AllocId}
    {d : DonorAllocation} {todo : List AllocId} {cons : List (VmId × List AllocId)}
    {dons : List (DonorAllocation × List AllocId)} (hpc : r'.pc = .check x d todo cons dons) :
    (u.alloc x).donorInfo = some d := by
  cases h with
  | taken hTake =>
    cases hpc
    exact donorInfo_of_taken hTake
  | _ => cases hpc

/-- A group is made for a VM that is there, at a path no other group has. -/
theorem ReturnCall.Sorted.step {u : Shared} (h : ReturnCall.Step tid u r op r') (hr : r.Sorted u)
    (hRegistered : ∀ v ∈ r'.vms, v ∈ u.registered)
    (hDistinct : ∀ v ∈ r'.vms, ∀ w ∈ r'.vms, u.pathOf v = u.pathOf w → v = w) :
    r'.Sorted u where
  registered := hRegistered
  distinct := hDistinct
  given x hx := by
    rw [h.allocs_eq]
    exact hr.given x (h.ungrouped hx)
  taken _ _ _ _ _ hpc := h.check_taken hpc

/-- A request or a revoke returns what is backed: all its VMs are known. -/
theorem ReturnCall.Apart.step (hInv : GroundedInv s) (h : ReturnCall.Step tid s.shared r op r')
    (hSorted : r.Sorted s.shared) (hApart : r.Apart s.shared)
    (hBacked : ∀ x ∈ r.allocs, (s.shared.alloc x).donorInfo ≠ none) :
    r'.Sorted s.shared ∧ r'.Apart s.shared := by
  have hKnown : ∀ x ∈ r.ungrouped, ∀ v, s.shared.Party x v → v ∈ s.shared.registered :=
    fun x hx => hInv.parties x (hBacked x (hSorted.given x hx))
  have hRegistered : ∀ v ∈ r'.vms, v ∈ s.shared.registered := by
    intro v hv
    rcases h.mem_vms hSorted hv with hOld | ⟨-, x, hx, hParty⟩
    · exact hSorted.registered v hOld
    · exact hKnown x hx v hParty
  refine ⟨hSorted.step h hRegistered fun v hv w hw hPath => ?_, fun v hv x hx w hParty => ?_⟩
  · rcases h.mem_vms hSorted hv with hvOld | ⟨hvLives, x, hx, hvParty⟩
    · rcases h.mem_vms hSorted hw with hwOld | ⟨hwLives, y, hy, hwParty⟩
      · exact hSorted.distinct v hvOld w hwOld hPath
      · rcases hApart v hvOld y hy w hwParty with hGone | hSame
        · rw [hwLives] at hGone
          cases hGone
        · exact hSame hPath
    · rcases h.mem_vms hSorted hw with hwOld | ⟨hwLives, y, hy, hwParty⟩
      · rcases hApart w hwOld x hx v hvParty with hGone | hSame
        · rw [hvLives] at hGone
          cases hGone
        · exact (hSame hPath.symm).symm
      · exact hInv.life.life.unique (hRegistered v hv) (hRegistered w hw) hvLives hwLives hPath
  · have hx := h.ungrouped hx
    rcases h.mem_vms hSorted hv with hOld | ⟨hLives, y, hy, hvParty⟩
    · exact hApart v hOld x hx w hParty
    · cases hGone : s.shared.exited w with
      | true => exact Or.inl rfl
      | false =>
        exact Or.inr (hInv.life.life.unique (hRegistered v hv) (hKnown x hx w hParty) hLives hGone)

/-- A removal groups only VMs that are there. -/
theorem ReturnCall.Present.step (hInv : GroundedInv s) (h : ReturnCall.Step tid s.shared r op r')
    (hSorted : r.Sorted s.shared) (hPresent : r.Present s.shared) :
    r'.Sorted s.shared ∧ r'.Present s.shared := by
  have hRegistered : ∀ v ∈ r'.vms, v ∈ s.shared.registered := by
    intro v hv
    rcases h.mem_vms hSorted hv with hOld | ⟨hLives, x, hx, hParty⟩
    · exact hSorted.registered v hOld
    · by_cases hInfo : (s.shared.alloc x).donorInfo ≠ none
      · exact hInv.parties x hInfo v hParty
      · rcases hParty with hConsumer | hDonor
        · have hGone := ((hPresent.ahead x hx).resolve_left hInfo).2
          rw [hConsumer, hLives] at hGone
          cases hGone
        · rw [Shared.BackedBy, EphAllocation.donorVm?, not_not.mp hInfo] at hDonor
          cases hDonor
  have hLiving : ∀ v ∈ r'.vms, s.shared.exited v = false := fun v hv =>
    (h.mem_vms hSorted hv).elim (hPresent.living v) And.left
  refine ⟨hSorted.step h hRegistered fun v hv w hw hPath => ?_,
    ⟨hLiving, fun x hx => hPresent.ahead x (h.ungrouped hx)⟩⟩
  exact hInv.life.life.unique (hRegistered v hv) (hRegistered w hw) (hLiving v hv) (hLiving w hw)
    hPath

end Step

-- ---------------------------------------------------------------------------
-- The others' steps
-- ---------------------------------------------------------------------------

section Exec

variable {s : System} {op : Op} {r : ReturnCall}

/-- What the others do leaves the groups sorted. -/
theorem ReturnCall.Sorted.exec (h : r.Sorted s.shared) (hCore : CoreInv s) :
    r.Sorted (op.exec s.shared) where
  registered v hv := mem_registered_exec (h.registered v hv) op
  distinct v hv w hw hPath := by
    rw [pathOf_exec] at hPath
    exact h.distinct v hv w hw hPath
  given := h.given
  taken x d todo cons dons hpc := by
    have hOld := h.taken x d todo cons dons hpc
    rw [donorVm?_exec hCore (by rw [hOld]; simp)]
    exact hOld

/-- What the others do leaves what is to be grouped apart from the groups. -/
theorem ReturnCall.Apart.exec (h : r.Apart s.shared) (hCore : CoreInv s)
    (hBacked : ∀ x ∈ r.ungrouped, (s.shared.alloc x).donorInfo ≠ none) :
    r.Apart (op.exec s.shared) := by
  intro v hv x hx w hw
  rw [pathOf_exec]
  refine (h v hv x hx w ((party_exec hCore (hBacked x hx)).mp hw)).imp_left fun hGone => ?_
  exact (evolves_exec op s.shared).exited w hGone

/-- While nobody exits, the VMs of the groups stay present. -/
theorem ReturnCall.Present.exec (h : r.Present s.shared) (hCore : CoreInv s)
    (hOp : op.settled = true) :
    r.Present (op.exec s.shared) where
  living v hv := by
    rw [(settled_exec hOp s.shared).2.2]
    exact h.living v hv
  ahead x hx := by
    have hEv := evolves_exec op s.shared
    refine (h.ahead x hx).imp (fun hInfo => ?_) fun ⟨hLt, hGone⟩ => ?_
    · rw [donorVm?_exec hCore hInfo]
      exact hInfo
    · rw [(hEv.alloc x hLt).consumer]
      exact ⟨lt_of_lt_of_le hLt hEv.nextId, hEv.exited _ hGone⟩

end Exec

-- ---------------------------------------------------------------------------
-- The threads
-- ---------------------------------------------------------------------------

/-- The groups of the return a thread is in. -/
structure Task.Groups (s : Shared) (t : Task) : Prop where
  exited : ∀ v, t.leaver = some v → s.exited v = true
  sorted : ∀ call, t.returns = some call → call.Sorted s
  apart : ∀ call, t.returns = some call → (∀ l, t ≠ .detection l) → call.Apart s
  present : ∀ call l, t = .detection l → t.returns = some call → call.Present s

structure GroupInv (s : System) : Prop where
  grounded : GroundedInv s
  groups : ∀ (i : Nat) (t : Task), s.tasks[i]? = some t → t.Groups s.shared

/-- A return starts without groups. -/
theorem ReturnCall.sorted_start (s : Shared) (l : List AllocId) : (ReturnCall.start l).Sorted s where
  registered _ hv := absurd hv List.not_mem_nil
  distinct _ hv := absurd hv List.not_mem_nil
  given x hx := hx
  taken x d todo cons dons hpc := by cases hpc

theorem ReturnCall.apart_start (s : Shared) (l : List AllocId) : (ReturnCall.start l).Apart s :=
  fun _ hv => absurd hv List.not_mem_nil

/-- Outside a return there is nothing to show. -/
theorem Task.groups_of_none {s : Shared} {t : Task} (hLeaver : t.leaver = none)
    (h : t.returns = none) : t.Groups s where
  exited _ hv := by rw [hLeaver] at hv; cases hv
  sorted call hCall := by rw [h] at hCall; cases hCall
  apart call hCall := by rw [h] at hCall; cases hCall
  present call l _ hCall := by rw [h] at hCall; cases hCall

/-- What a request or a revoke returns is backed. -/
theorem Task.returns_backed {t : Task} {call : ReturnCall} (hCall : t.returns = some call)
    (hNot : ∀ l, t ≠ .detection l) {x : AllocId} (hx : x ∈ call.allocs) : x ∈ t.backed := by
  unfold Task.returns at hCall
  split at hCall <;> cases hCall
  · exact List.mem_append_left _ hx
  · exact hx
  · exact hx
  · exact absurd rfl (hNot _)
  · exact absurd rfl (hNot _)

/-- What the others do leaves a thread's groups as they are. -/
theorem Task.Groups.exec {s : System} {op : Op} (h : GroundedInv s) {i : Nat} {t : Task}
    (ht : s.tasks[i]? = some t) (hGroups : t.Groups s.shared)
    (hOp : (∃ l, t = .detection l) → op.settled = true) : t.Groups (op.exec s.shared) where
  exited v hv := (evolves_exec op s.shared).exited v (hGroups.exited v hv)
  sorted call hCall := (hGroups.sorted call hCall).exec h.core
  apart call hCall hNot := by
    refine (hGroups.apart call hCall hNot).exec h.core fun x hx => ?_
    exact (h.tasks i t ht).backed x
      (Task.returns_backed hCall hNot ((hGroups.sorted call hCall).given x hx))
  present call l hl hCall := (hGroups.present call l hl hCall).exec h.core (hOp ⟨l, hl⟩)

/-- The VM a removal works on has been marked. -/
theorem Detection.Step.leaver_marked {tid : Tid} {s : Shared} {l l' : Detection} {op : Op}
    (h : Detection.Step tid s l op l')
    (hl : ∀ v, (Task.detection l).leaver = some v → s.exited v = true) {v : VmId}
    (hv : (Task.detection l').leaver = some v) : (op.exec s).exited v = true := by
  have hOld : (Task.detection l).leaver = some v → (op.exec s).exited v = true := fun hOld =>
    (evolves_exec op s).exited v (hl v hOld)
  cases h with
  | exitConsumer =>
    cases hv
    exact Function.update_self ..
  | exitDonor _ =>
    cases hv
    exact Function.update_self ..
  | _ => first | exact hOld hv | cases hv

theorem Task.returns_afterDead (c : VmId) (live : List AllocId) :
    (Task.request ⟨c, Request.afterDead live⟩).returns = none := by
  unfold Request.afterDead
  split <;> rfl

/-- A return is started, or goes on. -/
theorem Task.Step.returns_from {tid : Tid} {s : Shared} {t t' : Task} {op : Op}
    {started : List Task} (h : Task.Step tid s t op t' started) {r' : ReturnCall}
    (hr' : t'.returns = some r') :
    (∃ l, r' = .start l) ∨ ∃ r, t.returns = some r ∧ ReturnCall.Step tid s r op r' := by
  cases h with
  | events _ => cases hr'
  | detection hl =>
    cases hl with
    | again _ =>
      cases hr'
      exact Or.inl ⟨_, rfl⟩
    | collected =>
      cases hr'
      exact Or.inl ⟨_, rfl⟩
    | consumerReturn hStep =>
      cases hr'
      exact Or.inr ⟨_, rfl, hStep⟩
    | donorReturn hStep =>
      cases hr'
      exact Or.inr ⟨_, rfl, hStep⟩
    | _ => cases hr'
  | request hq =>
    cases hq with
    | addFailed =>
      cases hr'
      exact Or.inl ⟨_, rfl⟩
    | someDead =>
      cases hr'
      exact Or.inl ⟨_, rfl⟩
    | respondFailed =>
      cases hr'
      exact Or.inl ⟨_, rfl⟩
    | returnDead hStep =>
      cases hr'
      exact Or.inr ⟨_, rfl, hStep⟩
    | returnAll hStep =>
      cases hr'
      exact Or.inr ⟨_, rfl, hStep⟩
    | allLive =>
      rw [Task.returns_afterDead] at hr'
      cases hr'
    | returnedDead _ =>
      rw [Task.returns_afterDead] at hr'
      cases hr'
    | _ => cases hr'
  | revoke hv =>
    cases hv with
    | enough _ =>
      cases hr'
      exact Or.inl ⟨_, rfl⟩
    | giveBack hStep =>
      cases hr'
      exact Or.inr ⟨_, rfl, hStep⟩
    | _ => cases hr'

/-- A request or a revoke starts its return with nothing grouped. -/
theorem Task.Step.returns_apart {tid : Tid} {s : System} {t t' : Task} {op : Op}
    {started : List Task} (hInv : GroundedInv s) (h : Task.Step tid s.shared t op t' started)
    (hOld : t.Groups s.shared) (hBacked : ∀ x ∈ t.backed, (s.shared.alloc x).donorInfo ≠ none)
    (hNot : ∀ l, t' ≠ .detection l) {call : ReturnCall} (hCall : t'.returns = some call) :
    call.Sorted s.shared ∧ call.Apart s.shared := by
  have hNot' : ∀ l, t ≠ .detection l := by
    rintro l rfl
    cases h with
    | detection _ => exact hNot _ rfl
  rcases h.returns_from hCall with ⟨l, rfl⟩ | ⟨r, hr, hStep⟩
  · exact ⟨ReturnCall.sorted_start s.shared l, ReturnCall.apart_start s.shared l⟩
  · exact ReturnCall.Apart.step hInv hStep (hOld.sorted r hr) (hOld.apart r hr hNot')
      fun x hx => hBacked x (Task.returns_backed hr hNot' hx)

/-- A removal returns what it has just listed or seen committed. -/
theorem Detection.Step.returns_present {tid : Tid} {s : System} {l l' : Detection} {op : Op}
    (hInv : GroundedInv s) (h : Detection.Step tid s.shared l op l')
    (hOld : (Task.detection l).Groups s.shared)
    (hBacked : ∀ x ∈ (Task.detection l).backed, (s.shared.alloc x).donorInfo ≠ none)
    {call : ReturnCall} (hCall : (Task.detection l').returns = some call) :
    call.Sorted s.shared ∧ call.Present s.shared ∧ op.settled = true := by
  have hNext : ∀ r, (Task.detection l).returns = some r → ReturnCall.Step tid s.shared r op call →
      call.Sorted s.shared ∧ call.Present s.shared ∧ op.settled = true := by
    intro r hr hStep
    obtain ⟨hSorted, hPresent⟩ :=
      ReturnCall.Present.step hInv hStep (hOld.sorted r hr) (hOld.present r l rfl hr)
    refine ⟨hSorted, hPresent, Op.settled_of_performer ?_⟩
    rw [hStep.performer]
    simp
  cases h with
  | @again v vms _ =>
    cases hCall
    refine ⟨ReturnCall.sorted_start _ _,
      ⟨fun w hw => absurd hw List.not_mem_nil, fun x hx => Or.inr ?_⟩, rfl⟩
    obtain ⟨o, ho⟩ := OrdMap.mem_values_iff.mp (List.mem_filter.mp hx).1
    obtain ⟨hLt, hVm, -⟩ := hInv.core.areas v o x ho
    rw [hVm]
    exact ⟨hLt, hOld.exited v rfl⟩
  | collected =>
    cases hCall
    exact ⟨ReturnCall.sorted_start _ _,
      ⟨fun w hw => absurd hw List.not_mem_nil, fun x hx => Or.inl (hBacked x hx)⟩, rfl⟩
  | consumerReturn hr =>
    cases hCall
    exact hNext _ rfl hr
  | donorReturn hr =>
    cases hCall
    exact hNext _ rfl hr
  | _ => cases hCall

/-- The groups stay right whoever moves. -/
theorem GroupInv.move {s s' : System} {op : Op} (h : GroupInv s)
    (hm : orchestrator.Move s op s') : GroupInv s' := by
  have hInv := h.grounded
  refine ⟨hInv.move hm, ?_⟩
  refine forall_tasks_ne (J := fun _ u t => t.Groups u) hm
    (fun i t t' started ht hs => ⟨?_, fun j u hu => ?_, fun j u hj hu => ?_⟩)
    (fun started hs => ⟨fun j u hu => ?_, fun j u hu => ?_⟩)
  · have hOld := h.groups i t ht
    have hBacked := (hInv.tasks i t ht).backed
    have hBacked' : ∀ x ∈ t'.backed, (s.shared.alloc x).donorInfo ≠ none := fun x hx =>
      (hs.backed hx).elim (hBacked x) hInv.core.committed_donor
    refine ⟨fun v hv => ?_, fun call hCall => ?_, fun call hCall hNot => ?_,
      fun call l' hl' hCall => ?_⟩
    · cases hs with
      | detection hl => exact hl.leaver_marked hOld.exited hv
      | _ => cases hv
    · by_cases hNot : ∀ l, t' ≠ .detection l
      · exact (hs.returns_apart hInv hOld hBacked hNot hCall).1.exec hInv.core
      · cases hs with
        | detection hl => exact (hl.returns_present hInv hOld hBacked hCall).1.exec hInv.core
        | _ => exact absurd (fun l => by simp) hNot
    · obtain ⟨hSorted, hApart⟩ := hs.returns_apart hInv hOld hBacked hNot hCall
      refine hApart.exec hInv.core fun x hx => hBacked' x ?_
      exact Task.returns_backed hCall hNot (hSorted.given x hx)
    · subst hl'
      cases hs with
      | detection hl =>
        obtain ⟨-, hPresent, hOp⟩ := hl.returns_present hInv hOld hBacked hCall
        exact hPresent.exec hInv.core hOp
  · cases hs with
    | events hl =>
      obtain ⟨v, hv, rfl⟩ := List.mem_map.mp hu
      cases hl with
      | revokeEvent _ _ =>
        rw [List.mem_singleton.mp hv]
        exact Task.groups_of_none rfl rfl
      | _ => cases hv
    | _ => cases hu
  · refine (h.groups j u hu).exec hInv hu fun hDet => ?_
    obtain ⟨l, rfl⟩ := hDet
    cases hInv.life.sole.sole j l hu
    rcases hs.kind.1 with ⟨m, m', rfl, -⟩ | ⟨hOp, -⟩
    · exact absurd (hInv.life.sole.sole i m ht).symm hj
    · exact hOp
  · cases hs with
    | request =>
      rw [List.mem_singleton.mp hu]
      exact Task.groups_of_none rfl rfl
    | _ => cases hu
  · exact (h.groups j u hu).exec hInv hu fun _ => hs.kind.1

theorem groupInv_init {vm : VmId → Vm} {donor : VmId → DonorState} (hFresh : FreshDonors donor) :
    GroupInv (initSystem vm donor) where
  grounded := groundedInv_init hFresh
  groups := fun i t ht => by
    match i with
    | 0 =>
      cases ht
      exact Task.groups_of_none rfl rfl
    | 1 =>
      cases ht
      exact Task.groups_of_none rfl rfl
    | i + 2 => cases ht

/-- In any run, the VMs a return has grouped allocations under so far are
registered ones, and no two of them have one path, even where VMs come and go
at a path while it groups. So the groups by path are the groups by VM, and the
map from paths to VMs has the VM of each. -/
theorem groups_by_path {s : System} (h : Reachable s) {t : Task} (ht : t ∈ s.tasks)
    {call : ReturnCall} (hCall : t.returns = some call) :
    (∀ v ∈ call.vms, v ∈ s.shared.registered) ∧
      ∀ v ∈ call.vms, ∀ w ∈ call.vms, s.shared.pathOf v = s.shared.pathOf w → v = w := by
  obtain ⟨vm, donor, hFresh, hRun⟩ := h
  have hInv : GroupInv s :=
    hRun.invariant (fun _ _ _ hInv hm _ => hInv.move hm) (groupInv_init hFresh)
  obtain ⟨i, hi⟩ := List.mem_iff_getElem?.mp ht
  have hSorted := (hInv.groups i t hi).sorted call hCall
  exact ⟨hSorted.registered, hSorted.distinct⟩

/-- A revoke has grouped allocation 1 under VM 1 and its donor. -/
def demoGrouped : List (Label Op Choice) := demoRevoke ++ [.task 3 .go]

theorem demoGrouped_runs : (orchestrator.run demo demoGrouped).isSome = true := by decide +kernel

theorem groups_by_path_revoked :
    ∃ t ∈ (demoAfter demoGrouped).tasks, ∃ call, t.returns = some call ∧ call.vms = [1, 0] ∧
      ∀ v ∈ call.vms, v ∈ (demoAfter demoGrouped).shared.registered := by
  have hTask : Task.revoke ⟨⟨0, 7⟩, .giveBack ⟨[1], .organize [] [(1, [1])] [(⟨0, 7⟩, [1])]⟩⟩ ∈
      (demoAfter demoGrouped).tasks := by decide +kernel
  exact ⟨_, hTask, _, rfl, rfl, (groups_by_path (demo_reachable demoGrouped_runs) hTask rfl).1⟩

end EphMemory.Orchestrator
