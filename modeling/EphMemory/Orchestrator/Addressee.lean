import EphMemory.Orchestrator.Returns
import EphMemory.Orchestrator.Selecting

/-!
# Orchestrator — whom an event reaches

A reader thread tags an event with the path of the socket it was read on; the
handler looks the path up when the event's turn comes. Between the two the
detection thread may have removed the VM and registered another one at the
same path, and then the event reaches a VM that never sent it. A revoke has a
second way to err: it releases what it claimed by offset, and by then another
donor's allocation may lie there.

* `Handling` — the threads that work on an event: the handler that took it
  from the channel and the revoke thread it started;
* `OnlyAffects` — what such a thread may change: its VM, and the allocations
  backed by that VM;
* `PathSettled` — no VM is registered at a path that another one's events
  still name, and none is read from while another one holds its path;
* `PlaceSettled` — nothing lies at the offset of a claimed allocation until
  its release is over, but the allocation itself;
* `events_reach_their_source` — in every run that keeps to both, an event
  affects the VM it was read from only.
-/

namespace EphMemory.Orchestrator

open EphMemory.Lib

-- ---------------------------------------------------------------------------
-- The channel
-- ---------------------------------------------------------------------------

/-- The VM list holds the instance `v` at its path, or nothing. -/
def Shared.Holds (s : Shared) (path : SocketPath) (v : VmId) : Prop :=
  ∀ w ∈ s.vmList.get? path, w = v

/-- When a step cannot make an event reach another VM: a VM is registered at a
path no queued event of another VM names, and an event is queued while no
other VM is registered at its path. -/
def PathSettled (s : System) : Op → Prop
  | .register v =>
    ∀ e ∈ s.shared.events, e.vmPath = (s.shared.vm v).qmpSocketPath → e.source = v
  | .emitAdd c _ _ => s.shared.Holds (s.shared.vm c).qmpSocketPath c
  | .emitRelease c _ _ => s.shared.Holds (s.shared.vm c).qmpSocketPath c
  | .emitRevoke v _ _ => s.shared.Holds (s.shared.vm v).qmpSocketPath v
  | _ => True

instance (s : Shared) (path : SocketPath) (v : VmId) : Decidable (s.Holds path v) := by
  unfold Shared.Holds
  infer_instance

instance (s : System) (op : Op) : Decidable (PathSettled s op) := by
  unfold PathSettled
  split <;> infer_instance

/-- Every queued event would reach its VM, or none. -/
def Addressed (s : Shared) : Prop := ∀ e ∈ s.events, s.Holds e.vmPath e.source

/-- What an operation does to the VM list and to the channel. -/
inductive ChannelChange (s : Shared) : Op → OrdMap SocketPath VmId → List QmpEvent → Prop
  | same {op : Op} : ChannelChange s op s.vmList s.events
  | registered {v : VmId} :
      ChannelChange s (.register v) (s.vmList.insert (s.vm v).qmpSocketPath v) s.events
  | unregistered {paths : List SocketPath} :
      ChannelChange s (.unregister paths) (s.vmList.eraseAll paths) s.events
  | taken : ChannelChange s .nextEvent s.vmList s.events.tail
  | acknowledged {c : VmId} {extents : List Extent} {about : List AllocId} :
      ChannelChange s (.emitAdd c extents about) s.vmList (s.events ++
        [⟨(s.vm c).qmpSocketPath, c, .cxlAddDynamicCapacityResponse extents about⟩])
  | released {c : VmId} {extents : List Extent} {about : List AllocId} :
      ChannelChange s (.emitRelease c extents about) s.vmList (s.events ++
        [⟨(s.vm c).qmpSocketPath, c, .cxlReleaseDynamicCapacity extents about⟩])
  | revoked {v : VmId} {path : QomPath} {size : Nat} :
      ChannelChange s (.emitRevoke v path size) s.vmList (s.events ++
        [⟨(s.vm v).qmpSocketPath, v, .ephMemRevoke path size⟩])

/-- **What an operation does to the VM list and the channel**, case by case. -/
theorem channelChange_exec (op : Op) (s : Shared) :
    ChannelChange s op (op.exec s).vmList (op.exec s).events := by
  cases op with
  | register v => exact .registered
  | unregister paths => exact .unregistered
  | nextEvent => exact .taken
  | emitAdd c extents about => exact .acknowledged
  | emitRelease c extents about => exact .released
  | emitRevoke v path size => exact .revoked
  | handleReservedAlloc d ids requested granted =>
    simp only [Op.exec]
    split <;> exact .same
  | bookkeep d x =>
    simp only [Op.exec]
    split
    · exact .same
    · split <;> exact .same
  | commitState x =>
    simp only [Op.exec]
    split <;> exact .same
  | tryClaim d x =>
    simp only [Op.exec]
    split <;> exact .same
  | claimRelease c x call taken =>
    simp only [Op.exec]
    split <;> exact .same
  | _ => exact .same

theorem forall_append_one {E : QmpEvent → Prop} {events : List QmpEvent} {e : QmpEvent}
    (h : ∀ e ∈ events, E e) (he : E e) : ∀ e' ∈ events ++ [e], E e' := by
  intro e' he'
  rcases List.mem_append.mp he' with he' | he'
  · exact h e' he'
  · rw [List.mem_singleton.mp he']
    exact he

/-- While paths keep their VMs, an event finds the VM it came from. -/
theorem Addressed.exec {s : System} (h : Addressed s.shared) {op : Op} (hOp : PathSettled s op) :
    Addressed (op.exec s.shared) := by
  have hChange := channelChange_exec op s.shared
  unfold Addressed Shared.Holds
  generalize (op.exec s.shared).vmList = vmList at hChange ⊢
  generalize (op.exec s.shared).events = events at hChange ⊢
  cases hChange with
  | same => exact h
  | registered =>
    intro e he w hw
    rw [OrdMap.get?_insert] at hw
    split at hw
    · rename_i hPath
      rw [← Option.some.inj hw]
      exact (hOp e he hPath).symm
    · exact h e he w hw
  | unregistered =>
    intro e he w hw
    rw [OrdMap.get?_eraseAll] at hw
    split at hw
    · cases hw
    · exact h e he w hw
  | taken => exact fun e he => h e (List.mem_of_mem_tail he)
  | acknowledged => exact forall_append_one h hOp
  | released => exact forall_append_one h hOp
  | revoked => exact forall_append_one h hOp

-- ---------------------------------------------------------------------------
-- The offsets
-- ---------------------------------------------------------------------------

/-- What a revoke has claimed and not released from its consumer yet: it will
look these allocations up by their offsets. -/
def Task.unreleased : Task → List AllocId
  | .revoke ⟨_, .select _ claimed _⟩ => claimed
  | .revoke ⟨_, .giveBack call⟩ => call.unreleased
  | _ => []

/-- When a step cannot make a revoke reach another donor's allocation: a revoke
claims an allocation while no other one lies at its offset, and a reservation
leaves alone the offsets of what a revoke has claimed and not released. -/
def PlaceSettled (s : System) : Op → Prop
  | .tryClaim _ x => (s.shared.alloc x).state = .committed → s.shared.InPlace x
  | .reserveMemoryContig c size =>
    ∀ t ∈ s.tasks, ∀ x ∈ t.unreleased, (s.shared.alloc x).consumerVm = c →
      s.shared.offsetOf x ∉ s.shared.newOffsets c size
  | _ => True

/-- Neither the path of an event nor the offset of an allocation has come to
mean another one. -/
def Unmistaken (s : System) (op : Op) : Prop := PathSettled s op ∧ PlaceSettled s op

instance (s : System) (op : Op) : Decidable (PlaceSettled s op) := by
  unfold PlaceSettled
  split <;> infer_instance

instance (s : System) (op : Op) : Decidable (Unmistaken s op) :=
  inferInstanceAs (Decidable (_ ∧ _))

/-- Only a reservation can take an allocation's place. -/
theorem Shared.InPlace.exec {s : Shared} {op : Op} {x : AllocId} (h : s.InPlace x)
    (hLt : x < s.nextId)
    (hSpares : ∀ c size, op = .reserveMemoryContig c size → (s.alloc x).consumerVm = c →
      s.offsetOf x ∉ s.newOffsets c size) : (op.exec s).InPlace x := by
  have hEv := (evolves_exec op s).alloc x hLt
  have hVm : ((op.exec s).alloc x).consumerVm = (s.alloc x).consumerVm := hEv.consumer
  have hOff : (op.exec s).offsetOf x = s.offsetOf x := hEv.offset
  intro y hy
  rw [hVm, hOff] at hy
  by_cases hRes : ∃ c size, op = .reserveMemoryContig c size
  · obtain ⟨c, size, rfl⟩ := hRes
    rcases Shared.get?_reserve hy with ⟨hc, hNew⟩ | hOld
    · exact absurd (Shared.mem_zip_new hNew).2.2.2 (hSpares c size rfl hc)
    · exact h y hOld
  · exact h y (get?_exec_areas (fun c size hEq => hRes ⟨c, size, hEq⟩) hy)

-- ---------------------------------------------------------------------------
-- What an event may change
-- ---------------------------------------------------------------------------

/-- The VM that backs the allocation. -/
def EphAllocation.donorVm? (a : EphAllocation) : Option VmId :=
  a.donorInfo.map DonorAllocation.donorVm

/-- The allocation is backed by a region of `v`: `v` and its consumer share
it. -/
def Shared.BackedBy (s : Shared) (v : VmId) (x : AllocId) : Prop :=
  (s.alloc x).donorVm? = some v

instance (s : Shared) (v : VmId) (x : AllocId) : Decidable (s.BackedBy v x) :=
  inferInstanceAs (Decidable (_ = _))

theorem backedBy_of_donor {s : Shared} {x : AllocId} {d : DonorAllocation}
    (h : (s.alloc x).donorInfo = some d) : s.BackedBy d.donorVm x := by
  simp [Shared.BackedBy, EphAllocation.donorVm?, h]

/-- An allocation has one donor. -/
theorem Shared.BackedBy.donor {s : Shared} {v : VmId} {x : AllocId} {d : DonorAllocation}
    (h : s.BackedBy v x) (hd : (s.alloc x).donorInfo = some d) : d.donorVm = v :=
  Option.some.inj ((backedBy_of_donor hd).symm.trans h)

/-- Who backs an allocation goes on to, as far as it has a donor at all. -/
theorem Shared.BackedBy.mono {v : VmId} {s s' : Shared} {x : AllocId} (h : s.BackedBy v x)
    (hLt : x < s.nextId) (hEv : Evolves s s') : s'.BackedBy v x := by
  obtain ⟨d, hd, rfl⟩ := Option.map_eq_some_iff.mp h
  exact backedBy_of_donor ((hEv.alloc x hLt).donor d hd)

/-- A QMP command or message goes to `v`, or asks a consumer for allocations
backed by `v`. -/
def Output.SentFor (v : VmId) (s : Shared) : Output → Prop
  | .cxlReleaseDynamicCapacity c _ xs _ => ∀ x ∈ xs, s.BackedBy v x ∧ (s.alloc x).consumerVm = c
  | .ephMemReturnCapacity d _ _ _ => d.donorVm = v
  | .releaseGaps c _ _ => c = v
  | .ephMemDonateCapacity _ _ _ => False
  | .cxlAddDynamicCapacity _ _ _ => False
  | .ephMemResponse _ _ => False
  | _ => True

/-- Between `s` and `s'` only `v` changes, and the allocations `v` shares with
their consumers: another VM's map loses entries of allocations backed by `v`,
its mutex is taken to release such an allocation, and it is sent commands about
them only. -/
structure OnlyAffects (v : VmId) (s s' : Shared) : Prop where
  allocs : ∀ x, s'.alloc x ≠ s.alloc x → (s.alloc x).consumerVm = v ∨ s.BackedBy v x
  areas : ∀ w o, w ≠ v → (s'.allocatedAreas w).get? o ≠ (s.allocatedAreas w).get? o →
    ∃ x, s.BackedBy v x ∧ (s.allocatedAreas w).get? o = some x ∧
      (s'.allocatedAreas w).get? o = none
  regions : ∀ d, d.donorVm ≠ v → s'.region? d = s.region? d
  donorLock : ∀ w, w ≠ v → s'.donorLock w = s.donorLock w
  consumerLock : ∀ w, s'.consumerLock w ≠ s.consumerLock w →
    ∃ x, s.BackedBy v x ∧ (s.alloc x).consumerVm = w
  sent : ∃ new, s'.log = new ++ s.log ∧ ∀ o ∈ new, o.SentFor v s
  exited : s'.exited = s.exited
  device : s'.device = s.device
  serving : s'.serving = s.serving
  vmList : s'.vmList = s.vmList
  registered : s'.registered = s.registered

/-- The operations a thread that works for `v` performs. -/
inductive WorksFor (v : VmId) (s : Shared) : Op → Prop
  | nop : WorksFor v s .nop
  | nextEvent : WorksFor v s .nextEvent
  | signalAddDc {extents : List Extent} {about : List AllocId} :
      WorksFor v s (.signalAddDc v extents about)
  | releaseGaps {extents : List Extent} {ok : Bool} : WorksFor v s (.releaseGaps v extents ok)
  | signalReleaseDc {extents : List Extent} {about : List AllocId} :
      WorksFor v s (.signalReleaseDc v extents about)
  | beginRevoke {path : QomPath} {size : Nat} {tid : Tid} :
      WorksFor v s (.beginRevoke ⟨v, path⟩ size tid)
  | tryClaim {path : QomPath} {x : AllocId} :
      ((s.alloc x).state = .committed → s.BackedBy v x) → WorksFor v s (.tryClaim ⟨v, path⟩ x)
  | bookDebt {path : QomPath} {n : Nat} : WorksFor v s (.bookDebt ⟨v, path⟩ n)
  | abandon {x : AllocId} : s.BackedBy v x → WorksFor v s (.abandon x)
  | lockConsumer {c : VmId} {tid : Tid} {x : AllocId} :
      s.BackedBy v x → (s.alloc x).consumerVm = c → WorksFor v s (.lockConsumer c tid)
  | unlockConsumer {c : VmId} {x : AllocId} :
      s.BackedBy v x → (s.alloc x).consumerVm = c → WorksFor v s (.unlockConsumer c)
  | claimRelease {c : VmId} {x : AllocId} {call : List AllocId} {taken : Bool} :
      s.BackedBy v x → (s.alloc x).consumerVm = c → s.InPlace x →
      WorksFor v s (.claimRelease c x call taken)
  | cxlReleaseDynamicCapacity {c : VmId} {call xs : List AllocId} {ok : Bool} :
      (∀ x ∈ xs, s.BackedBy v x ∧ (s.alloc x).consumerVm = c) →
      WorksFor v s (.cxlReleaseDynamicCapacity c call xs ok)
  | releaseTimedOut {c : VmId} {xs : List AllocId} : WorksFor v s (.releaseTimedOut c xs)
  | removeAreas {c : VmId} {call xs : List AllocId} :
      (∀ x ∈ xs, s.BackedBy v x ∧ (s.alloc x).consumerVm = c ∧ s.InPlace x) →
      WorksFor v s (.removeAreas c call xs)
  | ephMemReturnCapacity {path : QomPath} {n : Nat} {covers : List AllocId} {ok : Bool} :
      WorksFor v s (.ephMemReturnCapacity ⟨v, path⟩ n covers ok)
  | bookkeep {path : QomPath} {x : AllocId} : WorksFor v s (.bookkeep ⟨v, path⟩ x)

/-- Work for `v` changes allocations it consumes or backs. -/
theorem WorksFor.allocs {v : VmId} {s : Shared} {op : Op} (h : WorksFor v s op)
    (hAreas : AreasOk s) (x : AllocId) (hne : (op.exec s).alloc x ≠ s.alloc x) :
    (s.alloc x).consumerVm = v ∨ s.BackedBy v x := by
  have hChange := allocChange_exec op s x
  generalize (op.exec s).alloc x = a at hChange hne
  cases hChange with
  | same _ _ _ _ _ => exact absurd rfl hne
  | created _ => cases h
  | donorSet => cases h
  | committed _ => cases h
  | claimed hState =>
    cases h with
    | tryClaim hBacked => exact Or.inr (hBacked hState)
  | abandoned =>
    cases h with
    | abandon hBacked => exact Or.inr hBacked
  | requested hFound =>
    cases h with
    | claimRelease hBacked hVm hPlace =>
      rw [hPlace.claimAt hVm hFound]
      exact Or.inr hBacked
  | marked hMem =>
    cases h
    obtain ⟨o, ho⟩ := signalAddDc_mem hMem
    exact Or.inl (hAreas v o x ho).2.1

/-- A map that changes at the offset of an allocation in its place loses that
allocation. -/
theorem Shared.InPlace.loses {s : Shared} {x : AllocId} {w : VmId} {o : Nat}
    {m : OrdMap Nat AllocId} (h : s.InPlace x) (hVm : (s.alloc x).consumerVm = w)
    (ho : s.offsetOf x = o) (hNone : m.get? o = none)
    (hne : m.get? o ≠ (s.allocatedAreas w).get? o) :
    (s.allocatedAreas w).get? o = some x ∧ m.get? o = none := by
  refine ⟨?_, hNone⟩
  cases hOld : (s.allocatedAreas w).get? o with
  | none => exact absurd (hNone.trans hOld.symm) hne
  | some y =>
    have hEq : y = x := h y (by rw [hVm, ho]; exact hOld)
    rw [hEq]

/-- In the areas of another VM, work for `v` only removes allocations that `v` backs. -/
theorem WorksFor.areas {v : VmId} {s : Shared} {op : Op} (h : WorksFor v s op) (w : VmId) (o : Nat)
    (hw : w ≠ v)
    (hne : ((op.exec s).allocatedAreas w).get? o ≠ (s.allocatedAreas w).get? o) :
    ∃ x, s.BackedBy v x ∧ (s.allocatedAreas w).get? o = some x ∧
      ((op.exec s).allocatedAreas w).get? o = none := by
  cases h with
  | signalReleaseDc =>
    simp only [Op.exec, Shared.setAreas, Shared.emit, Function.update_of_ne hw] at hne
    exact absurd rfl hne
  | tryClaim _ =>
    simp only [Op.exec] at hne
    split at hne <;> exact absurd rfl hne
  | @claimRelease c x call taken hBacked hVm hPlace =>
    refine ⟨x, hBacked, ?_⟩
    simp only [Op.exec] at hne ⊢
    split at hne
    · exact absurd rfl hne
    · exact absurd rfl hne
    · exact absurd rfl hne
    · simp only [Shared.emit, Shared.setAreas, Shared.setAlloc] at hne ⊢
      by_cases hcw : w = c
      · subst hcw
        rw [Function.update_self] at hne ⊢
        by_cases ho : s.offsetOf x = o
        · exact hPlace.loses hVm ho (by rw [OrdMap.get?_erase, if_pos ho.symm]) hne
        · rw [OrdMap.get?_erase, if_neg (Ne.symm ho)] at hne
          exact absurd rfl hne
      · rw [Function.update_of_ne hcw] at hne
        exact absurd rfl hne
  | @removeAreas c call xs hxs =>
    simp only [Op.exec, Shared.setAreas] at hne ⊢
    by_cases hcw : w = c
    · subst hcw
      rw [Function.update_self] at hne ⊢
      by_cases ho : o ∈ xs.map s.offsetOf
      · obtain ⟨x, hx, hOff⟩ := List.mem_map.mp ho
        obtain ⟨hBacked, hVm, hPlace⟩ := hxs x hx
        exact ⟨x, hBacked, hPlace.loses hVm hOff (by rw [OrdMap.get?_eraseAll, if_pos ho]) hne⟩
      · rw [OrdMap.get?_eraseAll, if_neg ho] at hne
        exact absurd rfl hne
    · rw [Function.update_of_ne hcw] at hne
      exact absurd rfl hne
  | bookkeep =>
    simp only [Op.exec] at hne
    split at hne
    · exact absurd rfl hne
    · split at hne <;> exact absurd rfl hne
  | _ => exact absurd rfl hne

/-- Work for `v` leaves the books of other donors. -/
theorem WorksFor.regions {v : VmId} {s : Shared} {op : Op} (h : WorksFor v s op)
    (d : DonorAllocation) (hd : d.donorVm ≠ v) : (op.exec s).region? d = s.region? d := by
  refine region?_exec_of_books fun hop => ?_
  cases h with
  | bookDebt =>
    cases hop
    exact hd rfl
  | bookkeep =>
    cases hop
    exact hd rfl
  | _ => cases hop

/-- Work for `v` leaves the mutexes of other donors. -/
theorem WorksFor.donorLock {v : VmId} {s : Shared} {op : Op} (h : WorksFor v s op) (w : VmId)
    (hw : w ≠ v) : (op.exec s).donorLock w = s.donorLock w := by
  cases h with
  | beginRevoke => exact Function.update_of_ne hw _ _
  | bookDebt => exact Function.update_of_ne hw _ _
  | tryClaim _ =>
    simp only [Op.exec]
    split <;> rfl
  | claimRelease _ _ _ =>
    simp only [Op.exec]
    split <;> rfl
  | bookkeep =>
    simp only [Op.exec]
    split
    · rfl
    · split <;> rfl
  | _ => rfl

/-- The mutex of another consumer is taken only for an allocation of its that `v` backs. -/
theorem WorksFor.consumerLock {v : VmId} {s : Shared} {op : Op} (h : WorksFor v s op) (w : VmId)
    (hne : (op.exec s).consumerLock w ≠ s.consumerLock w) :
    ∃ x, s.BackedBy v x ∧ (s.alloc x).consumerVm = w := by
  have hLocked : ∀ {c : VmId} {l : Option Tid} {x : AllocId},
      Function.update s.consumerLock c l w ≠ s.consumerLock w → s.BackedBy v x →
      (s.alloc x).consumerVm = c → ∃ x, s.BackedBy v x ∧ (s.alloc x).consumerVm = w := by
    intro c l x hne hBacked hVm
    by_cases hcw : w = c
    · exact ⟨x, hBacked, hVm.trans hcw.symm⟩
    · exact absurd (Function.update_of_ne hcw _ _) hne
  cases h with
  | lockConsumer hBacked hVm => exact hLocked hne hBacked hVm
  | unlockConsumer hBacked hVm => exact hLocked hne hBacked hVm
  | tryClaim _ =>
    simp only [Op.exec] at hne
    split at hne <;> exact absurd rfl hne
  | claimRelease _ _ _ =>
    simp only [Op.exec] at hne
    split at hne <;> exact absurd rfl hne
  | bookkeep =>
    simp only [Op.exec] at hne
    split at hne
    · exact absurd rfl hne
    · split at hne <;> exact absurd rfl hne
  | _ => exact absurd rfl hne

/-- What work for `v` sends goes to `v` or is about what it shares. -/
theorem WorksFor.sent {v : VmId} {s : Shared} {op : Op} (h : WorksFor v s op) :
    ∀ o ∈ op.outputs s, o.SentFor v s := by
  intro o ho
  cases h with
  | signalAddDc => rw [List.mem_singleton.mp ho]; trivial
  | releaseGaps => rw [List.mem_singleton.mp ho]; rfl
  | signalReleaseDc => rw [List.mem_singleton.mp ho]; trivial
  | beginRevoke => rw [List.mem_singleton.mp ho]; trivial
  | tryClaim _ =>
    simp only [Op.outputs] at ho
    split at ho
    · rw [List.mem_singleton.mp ho]; trivial
    · cases ho
  | abandon _ => rw [List.mem_singleton.mp ho]; trivial
  | claimRelease _ _ _ =>
    simp only [Op.outputs] at ho
    split at ho
    · cases ho
    · cases ho
    · rw [List.mem_singleton.mp ho]; trivial
    · rcases List.mem_pair.mp ho with rfl | rfl <;> trivial
  | cxlReleaseDynamicCapacity hxs => rw [List.mem_singleton.mp ho]; exact hxs
  | releaseTimedOut => rw [List.mem_singleton.mp ho]; trivial
  | removeAreas _ =>
    obtain ⟨x, -, rfl⟩ := List.mem_map.mp ho
    trivial
  | ephMemReturnCapacity => rw [List.mem_singleton.mp ho]; rfl
  | bookkeep =>
    simp only [Op.outputs] at ho
    split at ho
    · cases ho
    · split at ho
      · rw [List.mem_singleton.mp ho]; trivial
      · cases ho
  | _ => cases ho

/-- Operations performed for `v` affect `v` only. -/
theorem WorksFor.onlyAffects {v : VmId} {s : Shared} {op : Op} (h : WorksFor v s op)
    (hAreas : AreasOk s) : OnlyAffects v s (op.exec s) := by
  refine ⟨h.allocs hAreas, h.areas, h.regions, h.donorLock, h.consumerLock,
    ⟨op.outputs s, log_exec op s, h.sent⟩, ?_, ?_, ?_, ?_, ?_⟩
  all_goals
    cases h with
    | tryClaim _ =>
      simp only [Op.exec]
      split <;> rfl
    | claimRelease _ _ _ =>
      simp only [Op.exec]
      split <;> rfl
    | bookkeep =>
      simp only [Op.exec]
      split
      · rfl
      · split <;> rfl
    | _ => rfl

-- ---------------------------------------------------------------------------
-- The threads that work on an event
-- ---------------------------------------------------------------------------

/-- The thread works for the VM `v`. -/
def Task.For (v : VmId) : Task → Prop
  | .events .idle => True
  | .events (.signalAdd c _ _) => c = v
  | .events (.releaseGaps c _) => c = v
  | .events (.signalRelease c _ _) => c = v
  | .revoke r => r.donor.donorVm = v
  | _ => False

/-- What a revoke has claimed, its donor backs. -/
def Task.Revokes (s : Shared) : Task → Prop
  | .revoke ⟨d, .select _ claimed _⟩ => ∀ x ∈ claimed, s.BackedBy d.donorVm x ∧ x < s.nextId
  | .revoke ⟨d, .giveBack call⟩ => call.For (s.BackedBy d.donorVm) s
  | _ => True

theorem Task.Revokes.mono {s s' : Shared} {t : Task} (h : t.Revokes s) (hEv : Evolves s s') :
    t.Revokes s' := by
  cases t with
  | revoke r =>
    obtain ⟨d, pc⟩ := r
    cases pc with
    | select todo claimed remaining =>
      intro x hx
      obtain ⟨hBacked, hLt⟩ := h x hx
      exact ⟨hBacked.mono hLt hEv, lt_of_lt_of_le hLt hEv.nextId⟩
    | giveBack call => exact ReturnCall.For.mono h (fun _ hLt hx => hx.mono hLt hEv) hEv
    | _ => trivial
  | _ => trivial

/-- What a revoke has still to release exists. -/
theorem Task.Revokes.unreleased {s : Shared} {t : Task} (h : t.Revokes s) :
    ∀ x ∈ t.unreleased, x < s.nextId := by
  cases t with
  | revoke r =>
    obtain ⟨d, pc⟩ := r
    cases pc with
    | select todo claimed remaining => exact fun x hx => (h x hx).2
    | giveBack call => exact fun x hx => (ReturnCall.For.unreleased h x hx).2
    | _ => exact nofun
  | _ => exact nofun

/-- A release finds at an offset the allocation that was claimed, since that is
in its place. -/
theorem ReleaseCall.Step.worksFor {tid : Tid} {v : VmId} {s : Shared} {r r' : ReleaseCall}
    {op : Op} (h : ReleaseCall.Step tid s r op r') (hr : r.For (s.BackedBy v) s)
    (hPlace : ∀ x ∈ r.unreleased, s.InPlace x) : WorksFor v s op := by
  obtain ⟨y, hy⟩ := List.exists_mem_of_ne_nil _ hr.nonempty
  obtain ⟨hBacked, -, hVm⟩ := hr.allocs y hy
  have hOne : ∀ x ∈ r.unreleased, s.BackedBy v x ∧ (s.alloc x).consumerVm = r.consumer :=
    fun x hx =>
      have hIn := hr.allocs x (hr.unreleased x hx)
      ⟨hIn.1, hIn.2.2⟩
  cases h with
  | enter _ => exact .lockConsumer hBacked hVm
  | @claim c allocs taken todo toRelease x =>
    have hx : x ∈ ReleaseCall.unreleased ⟨c, allocs, taken, .claim (x :: todo) toRelease⟩ :=
      List.mem_cons_self ..
    exact .claimRelease (hOne x hx).1 (hOne x hx).2 (hPlace x hx)
  | nothing => exact .unlockConsumer hBacked hVm
  | claimed => exact .unlockConsumer hBacked hVm
  | sent => exact .cxlReleaseDynamicCapacity hOne
  | failed => exact .cxlReleaseDynamicCapacity hOne
  | confirmed _ => exact .nop
  | timedOut _ => exact .releaseTimedOut
  | manual => exact .removeAreas fun x hx => ⟨(hOne x hx).1, (hOne x hx).2, hPlace x hx⟩

/-- A give-back strikes from its own donor's region. -/
theorem GiveBack.Step.worksFor {v : VmId} {s : Shared} {g g' : GiveBack} {op : Op}
    (h : GiveBack.Step s g op g') (hg : g.For (s.BackedBy v) s) : WorksFor v s op := by
  obtain ⟨y, hy⟩ := List.exists_mem_of_ne_nil _ hg.nonempty
  obtain ⟨hBacked, -, hDonor⟩ := hg.ids y hy
  have hd : g.donor.donorVm = v := hBacked.donor hDonor
  cases h with
  | sent =>
    cases hd
    exact .ephMemReturnCapacity
  | failed =>
    cases hd
    exact .ephMemReturnCapacity
  | book _ =>
    cases hd
    exact .bookkeep
  | booked => exact .nop

/-- A return for allocations that `v` backs works for `v` in all of its calls. -/
theorem ReturnCall.Step.worksFor {tid : Tid} {v : VmId} {s : Shared} {r r' : ReturnCall}
    {op : Op} (h : ReturnCall.Step tid s r op r') (hr : r.For (s.BackedBy v) s)
    (hPlace : ∀ x ∈ r.unreleased, s.InPlace x) : WorksFor v s op := by
  cases h with
  | notTaken _ => exact .abandon (hr.1 _ (List.mem_cons_self ..)).1
  | taken _ => exact .abandon (hr.1 _ (List.mem_cons_self ..)).1
  | @release allocs calls dons i c c' op hc hStep =>
    have hMem := List.mem_of_getElem? hc
    exact hStep.worksFor (hr.1 c hMem) fun x hx =>
      hPlace x (List.mem_flatMap.mpr ⟨c, hMem, hx⟩)
  | giveBack hg hStep => exact hStep.worksFor (hr _ (List.mem_of_getElem? hg))
  | _ => exact .nop

/-- A thread that works for `v` performs only operations for `v`. -/
theorem Task.Step.worksFor {i : Nat} {v : VmId} {s : System} {t t' : Task} {op : Op}
    {started : List Task} (hInv : RevokeInv s) (hi : s.tasks[i]? = some t)
    (h : Task.Step i s.shared t op t' started) (ht : t.For v) (hRevokes : t.Revokes s.shared)
    (hPlace : ∀ x ∈ t.unreleased, s.shared.InPlace x) : WorksFor v s.shared op := by
  cases h with
  | events hl =>
    cases hl with
    | signalAdd _ _ =>
      cases ht
      exact .signalAddDc
    | releaseGaps =>
      cases ht
      exact .releaseGaps
    | signalRelease _ =>
      cases ht
      exact .signalReleaseDc
    | _ => exact .nextEvent
  | detection _ => exact ht.elim
  | request _ => exact ht.elim
  | revoke hv =>
    cases hv with
    | nothing => exact .nop
    | enter _ _ _ =>
      cases ht
      exact .beginRevoke
    | enough _ =>
      cases ht
      exact .bookDebt
    | claim _ _ =>
      cases ht
      exact .tryClaim fun hState =>
        backedBy_of_donor (hInv.selected_donor hi (List.mem_cons_self ..) hState)
    | pass hState =>
      cases ht
      exact .tryClaim fun hCommitted => absurd hCommitted hState
    | giveBack hr =>
      cases ht
      exact hr.worksFor hRevokes hPlace
    | gaveBack _ => exact .nop

/-- It goes on to work for `v`, until it takes the next event. -/
theorem Task.Step.for_step {tid : Tid} {v : VmId} {s : Shared} {t t' : Task} {op : Op}
    {started : List Task} (h : Task.Step tid s t op t' started) (ht : t.For v)
    (hBusy : t ≠ .events .idle) : t'.For v := by
  cases h with
  | events hl =>
    cases hl with
    | signalAdd _ hNext =>
      rcases hNext with rfl | ⟨gaps, rfl⟩
      · trivial
      · exact ht
    | releaseGaps => trivial
    | signalRelease _ => trivial
    | _ => exact absurd rfl hBusy
  | detection _ => exact ht.elim
  | request _ => exact ht.elim
  | revoke hv => cases hv <;> exact ht

/-- The lookup finds the VM that holds the path. -/
theorem holds_getConsumer {s : Shared} {path : SocketPath} {v c : VmId} (h : s.Holds path v)
    (hc : s.getConsumer path = some c) : c = v := by
  unfold Shared.getConsumer at hc
  split at hc
  · cases hc
  · rename_i w hw
    split at hc <;> cases hc
    exact h _ hw

theorem holds_getDonor {s : Shared} {path : SocketPath} {v c : VmId} (h : s.Holds path v)
    (hc : s.getDonor path = some c) : c = v := by
  unfold Shared.getDonor at hc
  split at hc
  · cases hc
  · rename_i w hw
    split at hc <;> cases hc
    exact h _ hw

/-- The handler that takes an event works for the VM the list holds at the
event's path, and so does the revoke thread it starts. -/
theorem for_taken {tid : Tid} {s : Shared} {e : QmpEvent} {rest : List QmpEvent} {t' : Task}
    {op : Op} {started : List Task} (hHolds : s.Holds e.vmPath e.source)
    (he : s.events = e :: rest) (h : Task.Step tid s (.events .idle) op t' started) :
    t'.For e.source ∧ ∀ u ∈ started, u.For e.source := by
  cases h with
  | events hl =>
    cases hl with
    | ignored => exact ⟨trivial, nofun⟩
    | addEvent hEvents hc =>
      cases (List.cons.inj (he.symm.trans hEvents)).1
      exact ⟨holds_getConsumer hHolds hc, nofun⟩
    | releaseEvent hEvents hc =>
      cases (List.cons.inj (he.symm.trans hEvents)).1
      exact ⟨holds_getConsumer hHolds hc, nofun⟩
    | revokeEvent hEvents hv =>
      cases (List.cons.inj (he.symm.trans hEvents)).1
      refine ⟨trivial, fun u hu => ?_⟩
      rw [List.mem_singleton.mp hu]
      exact holds_getDonor hHolds hv

-- ---------------------------------------------------------------------------
-- Every run
-- ---------------------------------------------------------------------------

/-- What holds along a run that keeps to `Unmistaken`: queued events name their
VMs, and what a revoke has claimed is its donor's and in its place. -/
structure SettledInv (s : System) : Prop where
  revoke : RevokeInv s
  addressed : Addressed s.shared
  revokes : ∀ (i : Nat) (t : Task), s.tasks[i]? = some t → t.Revokes s.shared
  inPlace : ∀ (i : Nat) (t : Task), s.tasks[i]? = some t →
    ∀ x ∈ t.unreleased, s.shared.InPlace x

/-- A revoke claims from the region it was sent for. -/
theorem Revoke.Step.revokes {i : Nat} {s : System} {v v' : Revoke} {op : Op} (h : SettledInv s)
    (hi : s.tasks[i]? = some (.revoke v)) (hs : Revoke.Step i s.shared v op v') :
    (Task.revoke v').Revokes (op.exec s.shared) := by
  have hEv := evolves_exec op s.shared
  have hOld := h.revokes i _ hi
  cases hs with
  | nothing => trivial
  | enter _ _ _ => exact nofun
  | enough _ =>
    refine ReturnCall.for_start fun x hx => ?_
    obtain ⟨hBacked, hLt⟩ := hOld x hx
    exact ⟨hBacked.mono hLt hEv, lt_of_lt_of_le hLt hEv.nextId⟩
  | @claim d todo claimed x remaining _ hState =>
    intro y hy
    rcases List.mem_append.mp hy with hy | hy
    · obtain ⟨hBacked, hLt⟩ := hOld y hy
      exact ⟨hBacked.mono hLt hEv, lt_of_lt_of_le hLt hEv.nextId⟩
    · -- the region lists what it backs, once it is Committed
      rw [List.mem_singleton.mp hy]
      have hDonor := h.revoke.selected_donor hi (List.mem_cons_self ..) hState
      have hLt : x < s.shared.nextId :=
        h.revoke.core.recorded_known ((h.revoke.select i _ hi).2.2 x (List.mem_cons_self ..))
      exact ⟨(backedBy_of_donor hDonor).mono hLt hEv, lt_of_lt_of_le hLt hEv.nextId⟩
  | pass _ => exact Task.Revokes.mono (t := .revoke ⟨_, .select _ _ _⟩) hOld hEv
  | giveBack hr =>
    exact Task.Revokes.mono (t := .revoke ⟨_, .giveBack _⟩)
      (ReturnCall.For.step hOld (h.inPlace i _ hi) hr) hEv
  | gaveBack _ => trivial

/-- A revoke comes to look up what it claims, and nothing else. -/
theorem Revoke.Step.unreleased {i : Nat} {s : System} {v v' : Revoke} {op : Op}
    (h : SettledInv s) (hi : s.tasks[i]? = some (.revoke v))
    (hs : Revoke.Step i s.shared v op v') :
    ∀ x ∈ (Task.revoke v').unreleased, x ∈ (Task.revoke v).unreleased ∨
      ∃ d, op = .tryClaim d x ∧ (s.shared.alloc x).state = .committed := by
  intro x hx
  cases hs with
  | enough _ => exact Or.inl (ReturnCall.mem_unreleased_start.mp hx)
  | @claim d todo claimed y remaining _ hState =>
    rcases List.mem_append.mp hx with hx | hx
    · exact Or.inl hx
    · rw [List.mem_singleton.mp hx]
      exact Or.inr ⟨d, rfl, hState⟩
  | pass _ => exact Or.inl hx
  | giveBack hr => exact Or.inl (hr.unreleased (h.revokes i _ hi) (h.inPlace i _ hi) x hx)
  | _ => cases hx

/-- Along the run every revoke holds its own donor's allocations only. -/
theorem SettledInv.revokes_move {s s' : System} {op : Op} (h : SettledInv s)
    (hm : orchestrator.Move s op s') :
    ∀ (i : Nat) (t : Task), s'.tasks[i]? = some t → t.Revokes s'.shared := by
  refine forall_tasks (J := fun _ s t => t.Revokes s) hm h.revokes
    (fun i t t' started ht hs => ?_) (fun started hs j u hu => ?_)
    (fun j u _ hu => hu.mono (evolves_exec op s.shared))
  · cases hs with
    | events hl =>
      refine ⟨trivial, fun _ u hu => ?_⟩
      obtain ⟨v, hv, rfl⟩ := List.mem_map.mp hu
      cases hl with
      | revokeEvent _ _ => rw [List.mem_singleton.mp hv]; trivial
      | _ => cases hv
    | revoke hv => exact ⟨hv.revokes h ht, nofun⟩
    | _ => exact ⟨trivial, nofun⟩
  · cases hs with
    | request => rw [List.mem_singleton.mp hu]; trivial
    | _ => cases hu

/-- What a revoke has claimed stays in its place until it is released. -/
theorem SettledInv.inPlace_move {s s' : System} {op : Op} (h : SettledInv s)
    (hm : orchestrator.Move s op s') (hOp : PlaceSettled s op) :
    ∀ (i : Nat) (t : Task), s'.tasks[i]? = some t → ∀ x ∈ t.unreleased, s'.shared.InPlace x := by
  -- what a thread still looks up stays in its place
  have hKeep : ∀ (i : Nat) (t : Task), s.tasks[i]? = some t → ∀ x ∈ t.unreleased,
      (op.exec s.shared).InPlace x := by
    intro i t ht x hx
    refine (h.inPlace i t ht x hx).exec ((h.revokes i t ht).unreleased x hx) ?_
    rintro c size rfl hVm
    exact hOp t (List.mem_of_getElem? ht) x hx hVm
  refine forall_tasks (J := fun _ s t => ∀ x ∈ t.unreleased, s.InPlace x) hm h.inPlace
    (fun i t t' started ht hs => ?_) (fun started hs j u hu => ?_) (fun j u hu _ => hKeep j u hu)
  · cases hs with
    | events hl =>
      refine ⟨nofun, fun _ u hu => ?_⟩
      obtain ⟨v, hv, rfl⟩ := List.mem_map.mp hu
      cases hl with
      | revokeEvent _ _ => rw [List.mem_singleton.mp hv]; exact nofun
      | _ => cases hv
    | revoke hv =>
      refine ⟨fun x hx => ?_, nofun⟩
      rcases hv.unreleased h ht x hx with hOld | ⟨d, rfl, hState⟩
      · exact hKeep i _ ht x hOld
      · obtain ⟨todo, claimed, remaining, hEq⟩ := (Task.Step.revoke hv).claims
        cases hEq
        have hLt : x < s.shared.nextId :=
          h.revoke.core.recorded_known ((h.revoke.select i _ ht).2.2 x (List.mem_cons_self ..))
        exact Shared.InPlace.exec (hOp hState) hLt nofun
    | _ => exact ⟨nofun, nofun⟩
  · cases hs with
    | request => rw [List.mem_singleton.mp hu]; exact nofun
    | _ => cases hu

/-- The parts hold on together. -/
theorem SettledInv.move {s s' : System} {op : Op} (h : SettledInv s)
    (hm : orchestrator.Move s op s') (hOp : Unmistaken s op) : SettledInv s' where
  revoke := h.revoke.move hm
  addressed := by
    rw [hm.shared_eq]
    exact h.addressed.exec hOp.1
  revokes := h.revokes_move hm
  inPlace := h.inPlace_move hm hOp.2

theorem settledInv_init {vm : VmId → Vm} {donor : VmId → DonorState} (hFresh : FreshDonors donor) :
    SettledInv (initSystem vm donor) where
  revoke := revokeInv_init hFresh
  addressed := fun e he => absurd he List.not_mem_nil
  revokes := by
    intro i t ht
    have hMem := List.mem_of_getElem? ht
    simp only [initSystem, List.mem_cons, List.not_mem_nil, or_false] at hMem
    rcases hMem with rfl | rfl <;> trivial
  inPlace := by
    intro i t ht
    have hMem := List.mem_of_getElem? ht
    simp only [initSystem, List.mem_cons, List.not_mem_nil, or_false] at hMem
    rcases hMem with rfl | rfl <;> exact fun x hx => absurd hx List.not_mem_nil

theorem ReachableBy.settledInv {s : System} (h : ReachableBy Unmistaken s) : SettledInv s := by
  obtain ⟨vm, donor, hFresh, hRun⟩ := h
  exact hRun.invariant (fun _ _ _ hs hm hOp => hs.move hm hOp) (settledInv_init hFresh)

/-- Thread `i` of `s` works on the event `e`: it is the handler that took `e`
from the channel and has not taken another event since, or the thread the
handler started for `e`. The run up to `s` keeps to `allow`. -/
inductive Handling (allow : System → Op → Prop) (e : QmpEvent) : System → Tid → Prop
  | taken {s s' : System} {i : Tid} {ch : Choice} {rest : List QmpEvent} :
      ReachableBy allow s → s.tasks[i]? = some (.events .idle) →
      s.shared.events = e :: rest → allow s .nextEvent →
      orchestrator.fire s (.task i ch) = some s' → Handling allow e s' i
  | started {s s' : System} {i j : Tid} {ch : Choice} {rest : List QmpEvent} :
      ReachableBy allow s → s.tasks[i]? = some (.events .idle) →
      s.shared.events = e :: rest → allow s .nextEvent →
      orchestrator.fire s (.task i ch) = some s' → s.tasks.length ≤ j → j < s'.tasks.length →
      Handling allow e s' j
  | move {s s' : System} {i : Tid} {l : Label Op Choice} {op : Op} :
      Handling allow e s i → orchestrator.opOf s l = some op → allow s op →
      orchestrator.fire s l = some s' →
      (∀ ch, l = .task i ch → s.tasks[i]? ≠ some (.events .idle)) → Handling allow e s' i

/-- A run goes on with a step that keeps to it. -/
theorem ReachableBy.fire {allow : System → Op → Prop} {s s' : System} {l : Label Op Choice}
    {op : Op} (h : ReachableBy allow s) (hop : orchestrator.opOf s l = some op)
    (hAllow : allow s op) (hf : orchestrator.fire s l = some s') : ReachableBy allow s' := by
  obtain ⟨vm, donor, hFresh, hRun⟩ := h
  exact ⟨vm, donor, hFresh, .tail hRun (Machine.move_of_opOf hop hf) hAllow⟩

/-- Taking an event is a `nextEvent`. -/
theorem op_of_idle {tid : Tid} {s : Shared} {t' : Task} {op : Op} {started : List Task}
    (h : Task.Step tid s (.events .idle) op t' started) : op = .nextEvent := by
  cases h with
  | events hl => cases hl <;> rfl

/-- A thread that works on an event works for the VM it was read from. -/
theorem Handling.works {e : QmpEvent} {s : System} {i : Tid} (h : Handling Unmistaken e s i) :
    ReachableBy Unmistaken s ∧ ∃ t, s.tasks[i]? = some t ∧ t.For e.source := by
  induction h with
  | @taken s s' i ch rest hReach hIdle he hAllow hf =>
    obtain ⟨t, op, t', started, ht, hn, hop, rfl⟩ := Machine.fire_task hf
    cases Option.some.inj (hIdle.symm.trans ht)
    have hStep : Task.Step i s.shared (.events .idle) op t' started := Task.step_of_next hn
    cases op_of_idle hStep
    have hHolds := hReach.settledInv.addressed e (he ▸ List.mem_cons_self ..)
    exact ⟨hReach.fire hop hAllow hf, t', Machine.getElem?_set_append_self ht,
      (for_taken hHolds he hStep).1⟩
  | @started s s' i j ch rest hReach hIdle he hAllow hf hLo hHi =>
    obtain ⟨t, op, t', started, ht, hn, hop, rfl⟩ := Machine.fire_task hf
    cases Option.some.inj (hIdle.symm.trans ht)
    have hStep : Task.Step i s.shared (.events .idle) op t' started := Task.step_of_next hn
    cases op_of_idle hStep
    have hHolds := hReach.settledInv.addressed e (he ▸ List.mem_cons_self ..)
    have hGet := List.getElem?_eq_getElem hHi
    refine ⟨hReach.fire hop hAllow hf, _, hGet, (for_taken hHolds he hStep).2 _ ?_⟩
    rw [List.getElem?_append_right (by rw [List.length_set]; exact hLo)] at hGet
    exact List.mem_of_getElem? hGet
  | @move s s' i l op hHandling hop hAllow hf hBusy ih =>
    obtain ⟨hReach, t, ht, hFor⟩ := ih
    refine ⟨hReach.fire hop hAllow hf, ?_⟩
    cases l with
    | task j ch =>
      obtain ⟨u, op', u', started, hu, hn, hop', rfl⟩ := Machine.fire_task hf
      by_cases hij : j = i
      · subst hij
        cases Option.some.inj (hu.symm.trans ht)
        have hNotIdle : t ≠ .events .idle := fun hEq => hBusy ch rfl (hEq ▸ ht)
        have hStep : Task.Step j s.shared t op' u' started := Task.step_of_next hn
        exact ⟨u', Machine.getElem?_set_append_self ht, hStep.for_step hFor hNotIdle⟩
      · exact ⟨t, Machine.getElem?_set_append_ne hij ht, hFor⟩
    | outside op' =>
      obtain ⟨started, hs, rfl⟩ := Machine.fire_outside hf
      have hLt := (List.getElem?_eq_some_iff.mp ht).1
      exact ⟨t, by rw [List.getElem?_append_left hLt, ht], hFor⟩

/-- **Events affect their own VM.** In every run that keeps to `Unmistaken`,
every step of a thread that works on an event changes only the VM whose
connection the event was read on, and the allocations it shares with others. -/
theorem events_reach_their_source {e : QmpEvent} {s s' : System} {i : Tid} {ch : Choice}
    (h : Handling Unmistaken e s i) (hf : orchestrator.fire s (.task i ch) = some s') :
    OnlyAffects e.source s.shared s'.shared := by
  obtain ⟨hReach, t, ht, hFor⟩ := h.works
  obtain ⟨u, op, u', started, hu, hn, -, rfl⟩ := Machine.fire_task hf
  cases Option.some.inj (hu.symm.trans ht)
  have hStep : Task.Step i s.shared t op u' started := Task.step_of_next hn
  have hInv := hReach.settledInv
  have hWorks := hStep.worksFor hInv.revoke ht hFor (hInv.revokes i t ht) (hInv.inPlace i t ht)
  exact hWorks.onlyAffects hInv.revoke.core.areas

/-- A revoke's thread remains its thread. -/
theorem Revoke.stays {s s' : System} {op : Op} {i : Tid} {v : Revoke}
    (hv : s.tasks[i]? = some (.revoke v)) (hm : orchestrator.Move s op s') :
    ∃ v', s'.tasks[i]? = some (.revoke v') := by
  cases hm with
  | @task j t t' ch started ht hn =>
    by_cases hij : j = i
    · subst hij
      cases Option.some.inj (hv.symm.trans ht)
      have hStep : Task.Step j s.shared (.revoke v) op t' started := Task.step_of_next hn
      cases hStep with
      | @revoke v v' op hr => exact ⟨v', Machine.getElem?_set_append_self ht⟩
    · exact ⟨v, Machine.getElem?_set_append_ne hij hv⟩
  | @outside started hs =>
    have hLt := (List.getElem?_eq_some_iff.mp hv).1
    exact ⟨v, by rw [List.getElem?_append_left hLt, hv]⟩

/-- A revoke thread works on the event it was started for to its end. -/
theorem Handling.steps {allow : System → Op → Prop} {e : QmpEvent} {s s' : System} {i : Tid}
    {v : Revoke} (h : Handling allow e s i) (hv : s.tasks[i]? = some (.revoke v))
    (hRun : orchestrator.Steps allow s s') : Handling allow e s' i := by
  have hBoth : Handling allow e s' i ∧ ∃ v', s'.tasks[i]? = some (.revoke v') := by
    refine hRun.invariant (I := fun s => Handling allow e s i ∧
      ∃ v, s.tasks[i]? = some (.revoke v)) (fun s op s' hs hm hAllow => ?_) ⟨h, v, hv⟩
    obtain ⟨hHandling, v, hv⟩ := hs
    obtain ⟨l, hop, hf⟩ := hm.label
    refine ⟨.move hHandling hop hAllow hf fun _ _ hIdle => ?_, Revoke.stays hv hm⟩
    cases hv.symm.trans hIdle
  exact hBoth.1

-- ---------------------------------------------------------------------------
-- Three short runs
-- ---------------------------------------------------------------------------

/-- The event of VM 0 that asks for a chunk back. -/
def askedEvent : QmpEvent := ⟨0, 0, .ephMemRevoke 7 granularity⟩

/-- VM 0 backs allocation 1 of VM 1 and asks for a chunk back. -/
def demoAsked : List (Label Op Choice) :=
  demoCommit ++ [.outside (.emitRevoke 0 7 granularity)]

theorem demoAsked_runs : (orchestrator.runIf (fun s op => decide (Unmistaken s op)) demo
    demoAsked).isSome = true := by decide +kernel

def demoRevoking : System := demoAfter (demoAsked ++ [.task 0 .go])

/-- The revoke claims the allocation, takes its donor and is about to look it
up in the map of VM 1. -/
def demoLookUp : List (Label Op Choice) :=
  [.task 3 .go, .task 3 .go, .task 3 .go, .task 3 .go, .task 3 .go, .task 3 .go, .task 3 .go,
    .task 3 (.sub 0 .go)]

/-- The revoke was started for the event. -/
theorem handling_asked :
    Handling Unmistaken askedEvent (orchestrator.after demoRevoking demoLookUp) 3 := by
  have hEvents : (demoAfter demoAsked).shared.events = [askedEvent] := by decide +kernel
  have hIdle : (demoAfter demoAsked).tasks[0]? = some (.events .idle) := by decide +kernel
  have hFire : orchestrator.fire (demoAfter demoAsked) (.task 0 .go) = some demoRevoking :=
    Machine.fire_after (by decide +kernel)
  have hTask : demoRevoking.tasks[3]? = some (.revoke ⟨⟨0, 7⟩, .start granularity⟩) := by
    decide +kernel
  have hStarted : Handling Unmistaken askedEvent demoRevoking 3 :=
    .started (demo_reachableBy demoAsked_runs) hIdle hEvents ⟨trivial, trivial⟩ hFire
      (by decide +kernel) (by decide +kernel)
  exact hStarted.steps hTask (Machine.steps_afterIf (by decide +kernel))

/-- It takes the allocation VM 0 backs out of the map of VM 1. -/
theorem events_reach_their_source_asked :
    ((orchestrator.after demoRevoking demoLookUp).shared.allocatedAreas 1).get? 0 = some 1 ∧
    ((orchestrator.after demoRevoking
      (demoLookUp ++ [.task 3 (.sub 0 .go)])).shared.allocatedAreas 1).get? 0 = none ∧
    OnlyAffects 0 (orchestrator.after demoRevoking demoLookUp).shared
      (orchestrator.after demoRevoking (demoLookUp ++ [.task 3 (.sub 0 .go)])).shared := by
  have hFire : orchestrator.fire (orchestrator.after demoRevoking demoLookUp)
      (.task 3 (.sub 0 .go)) =
        some (orchestrator.after demoRevoking (demoLookUp ++ [.task 3 (.sub 0 .go)])) :=
    Machine.fire_after (by decide +kernel)
  exact ⟨by decide +kernel, by decide +kernel, events_reach_their_source handling_asked hFire⟩

/-- Every VM donates from one region. -/
def heirDonor : VmId → DonorState := fun _ => demoDonor 0

theorem heirDonor_fresh : FreshDonors heirDonor := by
  intro v r hr
  rw [List.mem_singleton.mp hr]
  rfl

/-- Every VM has its socket at the same path. -/
def heir : System := initSystem (fun _ => ⟨0, none⟩) heirDonor

/-- VM 0 asks for a chunk back and goes; VM 2 appears at its path. -/
def heirAppears : List (Label Op Choice) :=
  [.task 1 (.register 0), .outside (.emitRevoke 0 7 granularity),
    .task 1 (.remove [0]), .task 1 .go, .task 1 .go, .task 1 .go, .task 1 .go, .task 1 .go,
    .task 1 .go, .task 1 .go, .task 1 .go,
    .task 1 (.register 2)]

theorem heirAppears_reachable :
    ReachableBy (fun _ _ => True) (orchestrator.after heir heirAppears) :=
  ⟨_, heirDonor, heirDonor_fresh, Machine.steps_after (by decide +kernel)⟩

/-- The handler takes the event of VM 0 now. -/
def heirRevoking : System := orchestrator.after heir (heirAppears ++ [.task 0 .go])

/-- The revoke was started for the event VM 0 sent. -/
theorem handling_heir : Handling (fun _ _ => True) askedEvent
    (orchestrator.after heirRevoking [.task 2 .go]) 2 := by
  have hEvents : (orchestrator.after heir heirAppears).shared.events = [askedEvent] := by
    decide +kernel
  have hIdle : (orchestrator.after heir heirAppears).tasks[0]? = some (.events .idle) := by
    decide +kernel
  have hFire : orchestrator.fire (orchestrator.after heir heirAppears) (.task 0 .go) =
      some heirRevoking := Machine.fire_after (by decide +kernel)
  have hTask : heirRevoking.tasks[2]? = some (.revoke ⟨⟨2, 7⟩, .start granularity⟩) := by
    decide +kernel
  have hStarted : Handling (fun _ _ => True) askedEvent heirRevoking 2 :=
    .started heirAppears_reachable hIdle hEvents trivial hFire (by decide +kernel)
      (by decide +kernel)
  exact hStarted.steps hTask (Machine.steps_after (by decide +kernel))

/-- The event VM 0 sent before it went puts VM 2 into debt. -/
theorem event_reaches_heir :
    ∃ s s', Handling (fun _ _ => True) askedEvent s 2 ∧
      orchestrator.fire s (.task 2 .go) = some s' ∧
      (s.shared.region? ⟨2, 7⟩).map DonatableRegion.revokedOwed = some 0 ∧
      (s'.shared.region? ⟨2, 7⟩).map DonatableRegion.revokedOwed = some granularity ∧
      ¬ OnlyAffects askedEvent.source s.shared s'.shared := by
  have hFire : orchestrator.fire (orchestrator.after heirRevoking [.task 2 .go]) (.task 2 .go) =
      some (orchestrator.after heirRevoking ([.task 2 .go] ++ [.task 2 .go])) :=
    Machine.fire_after (by decide +kernel)
  have hOld : ((orchestrator.after heirRevoking [.task 2 .go]).shared.region? ⟨2, 7⟩).map
      DonatableRegion.revokedOwed = some 0 := by decide +kernel
  have hNew : ((orchestrator.after heirRevoking
      ([.task 2 .go] ++ [.task 2 .go])).shared.region? ⟨2, 7⟩).map
        DonatableRegion.revokedOwed = some granularity := by decide +kernel
  refine ⟨_, _, handling_heir, hFire, hOld, hNew, fun hOnly => ?_⟩
  have hSame := hOnly.regions ⟨2, 7⟩ (by decide)
  rw [hSame, hOld] at hNew
  cases hNew

/-- VM 0 and VM 2 donate one chunk each. -/
def chunkDonor : VmId → DonorState := fun v =>
  if v = 1 then ⟨[], List.nodup_nil⟩ else ⟨[.new granularity 7], List.nodup_singleton _⟩

theorem chunkDonor_fresh : FreshDonors chunkDonor := by
  intro v r hr
  unfold chunkDonor at hr
  split at hr
  · cases hr
  · rw [List.mem_singleton.mp hr]
    rfl

/-- After `demoCommit` VM 1 is told of allocation 1, which VM 0 backs, and VM 0
asks for its chunk back. -/
def chunkTold : List (Label Op Choice) :=
  [.task 2 .go, .task 2 .go, .task 2 .go, .task 2 .go, .task 2 .go, .task 2 .go, .task 2 .go,
    .task 2 .go, .task 2 (.outcome true),
    .outside (.emitAdd 1 [⟨0, granularity⟩] [1]), .task 0 .go, .task 0 .go,
    .task 2 .go, .task 2 .go, .task 2 .go, .task 2 (.outcome true), .task 2 .go, .task 2 .go,
    .outside (.emitRevoke 0 7 granularity)]

def chunkAsked : List (Label Op Choice) := .task 1 (.register 2) :: (demoCommit ++ chunkTold)

theorem chunkAsked_runs : (orchestrator.runIf (fun s op => decide (PathSettled s op))
    (initSystem demoVm chunkDonor) chunkAsked).isSome = true := by decide +kernel

theorem chunkAsked_reachable : ReachableBy PathSettled
    (orchestrator.after (initSystem demoVm chunkDonor) chunkAsked) :=
  ⟨demoVm, chunkDonor, chunkDonor_fresh, Machine.steps_afterIf chunkAsked_runs⟩

def chunkRevoking : System :=
  orchestrator.after (initSystem demoVm chunkDonor) (chunkAsked ++ [.task 0 .go])

/-- The revoke claims allocation 1. The guest lets go of the extent, and the
next request of VM 1 is given allocation 2 there, which VM 2 backs. Then the
revoke goes on. -/
def chunkReused : List (Label Op Choice) :=
  [.task 3 .go, .task 3 .go, .task 3 .go,
    .outside (.emitRelease 1 [⟨0, granularity⟩] [1]), .task 0 .go, .task 0 .go,
    .outside (.startRequest 1 granularity),
    .task 4 .go, .task 4 .go, .task 4 .go, .task 4 .go, .task 4 .go, .task 4 .go, .task 4 .go,
    .task 4 (.granted (some granularity)), .task 4 .go, .task 4 .go, .task 4 .go,
    .task 4 .go, .task 4 .go, .task 4 .go, .task 4 .go, .task 4 .go, .task 4 .go, .task 4 .go,
    .task 4 .go, .task 4 (.outcome true),
    .outside (.emitAdd 1 [⟨0, granularity⟩] [2]), .task 0 .go, .task 0 .go,
    .task 4 .go, .task 4 .go, .task 4 .go, .task 4 (.outcome true), .task 4 .go, .task 4 .go,
    .task 3 .go, .task 3 .go, .task 3 .go, .task 3 .go, .task 3 (.sub 0 .go)]

/-- The revoke was started for the event VM 0 sent. -/
theorem handling_chunk :
    Handling PathSettled askedEvent (orchestrator.after chunkRevoking chunkReused) 3 := by
  have hEvents : (orchestrator.after (initSystem demoVm chunkDonor) chunkAsked).shared.events =
      [askedEvent] := by decide +kernel
  have hIdle : (orchestrator.after (initSystem demoVm chunkDonor) chunkAsked).tasks[0]? =
      some (.events .idle) := by decide +kernel
  have hFire : orchestrator.fire (orchestrator.after (initSystem demoVm chunkDonor) chunkAsked)
      (.task 0 .go) = some chunkRevoking := Machine.fire_after (by decide +kernel)
  have hTask : chunkRevoking.tasks[3]? = some (.revoke ⟨⟨0, 7⟩, .start granularity⟩) := by
    decide +kernel
  have hStarted : Handling PathSettled askedEvent chunkRevoking 3 :=
    .started chunkAsked_reachable hIdle hEvents trivial hFire (by decide +kernel)
      (by decide +kernel)
  exact hStarted.steps hTask (Machine.steps_afterIf (by decide +kernel))

/-- Settled paths are not enough: VM 0's revoke asks for the release of the
live allocation VM 2 backs. -/
theorem revoke_reaches_newcomer :
    ∃ s s', Handling PathSettled askedEvent s 3 ∧
      orchestrator.fire s (.task 3 (.sub 0 .go)) = some s' ∧
      s.shared.BackedBy 2 2 ∧ (s.shared.alloc 2).isLive = true ∧
      .ephMemResponse 1 2 ∈ s.shared.log ∧ (s'.shared.alloc 2).releaseRequested = true ∧
      ¬ OnlyAffects askedEvent.source s.shared s'.shared := by
  have hFire : orchestrator.fire (orchestrator.after chunkRevoking chunkReused)
      (.task 3 (.sub 0 .go)) =
        some (orchestrator.after chunkRevoking (chunkReused ++ [.task 3 (.sub 0 .go)])) :=
    Machine.fire_after (by decide +kernel)
  have hBacked : (orchestrator.after chunkRevoking chunkReused).shared.BackedBy 2 2 := by
    decide +kernel
  have hLive : ((orchestrator.after chunkRevoking chunkReused).shared.alloc 2).isLive = true := by
    decide +kernel
  have hTold : .ephMemResponse 1 2 ∈ (orchestrator.after chunkRevoking chunkReused).shared.log := by
    decide +kernel
  have hVm : ((orchestrator.after chunkRevoking chunkReused).shared.alloc 2).consumerVm = 1 := by
    decide +kernel
  have hRequested : ((orchestrator.after chunkRevoking
      (chunkReused ++ [.task 3 (.sub 0 .go)])).shared.alloc 2).releaseRequested = true := by
    decide +kernel
  refine ⟨_, _, handling_chunk, hFire, hBacked, hLive, hTold, hRequested, fun hOnly => ?_⟩
  have hChanged : (orchestrator.after chunkRevoking
      (chunkReused ++ [.task 3 (.sub 0 .go)])).shared.alloc 2 ≠
        (orchestrator.after chunkRevoking chunkReused).shared.alloc 2 := by
    intro hEq
    rw [hEq] at hRequested
    simp [EphAllocation.isLive, EphAllocation.isReleaseRequested, hRequested] at hLive
  rcases hOnly.allocs 2 hChanged with hOwn | hOwn
  · exact absurd (hVm.symm.trans hOwn) (by decide)
  · exact absurd (Option.some.inj (hBacked.symm.trans hOwn)) (by decide)

end EphMemory.Orchestrator
