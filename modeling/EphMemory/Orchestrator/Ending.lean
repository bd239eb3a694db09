import EphMemory.Lib.Ending
import EphMemory.Orchestrator.AtRest
import EphMemory.Orchestrator.FullGrants
import EphMemory.Orchestrator.Returning

/-!
# Orchestrator — threads end

Whatever the other threads, QEMU and the guests do, a request and a revoke make
boundedly many steps. The loop of `allocate_eph_memory` is the one that could
go on: it ends since every round starts after the socket path of the donor it
asked last, and VMs that appear meanwhile are only met when they sort after it.

* `beyond` — the VMs a grant has yet to come to;
* `AllocCall.stepsLeft`, `Request.stepsLeft`, `Revoke.stepsLeft` — bounds on
  the steps to go, given the VMs there will have been and the allocations;
* `AllocCall.Walks` — a grant walks on in path order; `WalkInv.move`;
* `Task.Step.stepsLeft_lt` — each step of a request or a revoke lowers its bound;
* `threads_end` — how often they move at most.
-/

namespace EphMemory.Orchestrator

open EphMemory.Lib

-- ---------------------------------------------------------------------------
-- The steps to go
-- ---------------------------------------------------------------------------

section StepsLeft

variable (path : VmId → SocketPath) (vms : List VmId)

/-- How many of the VMs come after `last`. -/
def beyond (last : Option SocketPath) : Nat :=
  vms.countP fun v =>
    match last with
    | none => true
    | some p => decide (p < path v)

/-- More than the steps left to a grant: 16 for each VM it may still come to and
three for each allocation it may still commit. -/
def AllocCall.stepsLeft (a : AllocCall) : Nat :=
  let after (p : Option SocketPath) := 16 * beyond path vms p + 3 * a.rest.length
  match a.pc with
  | .loop => after a.lastPath + 2
  | .scan [] => 1
  | .scan (v :: _) => after (some (path v)) + 17
  | .donate d _ => after (some (path d.donorVm)) + 12
  | .confirm d _ _ => after (some (path d.donorVm)) + 11
  | .handBack d _ _ => after (some (path d.donorVm)) + 10
  | .commit d _ abandoned => after (some (path d.donorVm)) + 9 + abandoned.length
  | .commitState d _ _ abandoned => after (some (path d.donorVm)) + 11 + abandoned.length
  | .giveBack g => g.left + 1
  | .done => 0

/-- More than the steps left to a request: 28 for each chunk it may still
reserve, 16 for each VM it may come to. -/
def Request.stepsLeft (q : Request) : Nat :=
  match q.pc with
  | .start size => 28 * ((checkedNextMultipleOf size).getD 0 / granularity) + 16 * vms.length + 30
  | .reserve remaining rsvd =>
    28 * (remaining / granularity) + 27 * rsvd.length + 16 * vms.length + 29
  | .allocate call rsvd => call.stepsLeft path vms + call.rest.length + 23 * rsvd.length + 26
  | .drop call rsvd => call.left + 23 * rsvd.length + 19
  | .retain todo kept => 23 * todo.length + 22 * kept.length + 18
  | .add rsvd => 22 * rsvd.length + 17
  | .wait rsvd => 22 * rsvd.length + 16
  | .partition todo live dead => 22 * todo.length + 21 * live.length + 20 * dead.length + 15
  | .returnDead call live => call.left + 21 * live.length + 10
  | .respond todo live => todo.length + 20 * live.length + 8
  | .returnAll call => call.left + 2
  | .done _ => 1
  | .returned => 0

/-- More than the steps left to a revoke, when there are `n` allocations. -/
def Revoke.stepsLeft (n : Nat) (v : Revoke) : Nat :=
  match v.pc with
  | .start _ => 21 * n + 7
  | .select todo claimed _ => 21 * todo.length + 20 * claimed.length + 6
  | .giveBack call => call.left + 1
  | .done => 0

end StepsLeft

/-- What a return costs is fixed by how many allocations it is called with. -/
theorem ReturnCall.left_start (l : List AllocId) : (ReturnCall.start l).left = 20 * l.length + 4 := by
  simp [ReturnCall.left, ReturnCall.start]

-- ---------------------------------------------------------------------------
-- A grant walks on
-- ---------------------------------------------------------------------------

section Walk

variable {path : VmId → SocketPath} {vms : List VmId}

/-- Before the first VM all are still to come. -/
theorem beyond_none : beyond path vms none = vms.length := by
  simp [beyond]

/-- Past a VM that was ahead there are fewer. -/
theorem beyond_lt {last : Option SocketPath} {v : VmId} (hv : v ∈ vms)
    (hPast : ∀ p, last = some p → p < path v) :
    beyond path vms (some (path v)) < beyond path vms last := by
  refine countP_lt_countP (a := v) (fun w _ hw => ?_) hv ?_ ?_
  · cases last with
    | none => rfl
    | some p => exact decide_eq_true (lt_trans (hPast p rfl) (of_decide_eq_true hw))
  · exact decide_eq_false (lt_irrefl _)
  · cases last with
    | none => rfl
    | some p => exact decide_eq_true (hPast p rfl)

end Walk

/-- A walk over the VM list goes on in path order, over VMs that have been
registered. -/
def AllocCall.Walks (s : Shared) (a : AllocCall) : Prop :=
  ∀ vms, a.pc = .scan vms → vms.Pairwise (fun v w => s.pathOf v < s.pathOf w) ∧
    ∀ v ∈ vms, v ∈ s.registered ∧ ∀ p, a.lastPath = some p → p < s.pathOf v

section Grant

variable {s : Shared} {a a' : AllocCall} {op : Op}

/-- The donors to ask come in path order, after the last one that was asked. -/
theorem candidates_walk {vms : List VmId} (h : LifeOk s vms) (last : Option SocketPath) :
    (AllocCall.candidates s last).Pairwise (fun v w => s.pathOf v < s.pathOf w) ∧
      ∀ v ∈ AllocCall.candidates s last,
        v ∈ s.registered ∧ ∀ p, last = some p → p < s.pathOf v := by
  have hKeyed : s.ListKeyed := fun p v hv => (h.listed p v hv).1
  refine ⟨?_, fun v hv => ?_⟩
  · refine List.pairwise_map.mpr ((s.vmList.sorted.filter _).imp_of_mem ?_)
    intro e f he hf hLt
    have hPath : ∀ e ∈ s.vmList.entries, s.pathOf e.2 = e.1 := fun e he =>
      hKeyed e.1 e.2 (OrdMap.mem_entries_iff.mp he)
    rw [hPath e (List.mem_of_mem_filter he), hPath f (List.mem_of_mem_filter hf)]
    exact hLt
  · obtain ⟨hMem, hPast⟩ := mem_candidates hKeyed hv
    obtain ⟨p, hp⟩ := OrdMap.mem_values_iff.mp hMem
    exact ⟨(h.listed p v hp).2.1, hPast⟩

/-- A grant goes on in that order. -/
theorem AllocCall.Step.walks {vms : List VmId} (hLife : LifeOk s vms)
    (h : AllocCall.Step s a op a') (ha : a.Walks s) : a'.Walks s := by
  cases h with
  | look =>
    rintro _ ⟨⟩
    exact candidates_walk hLife _
  | full =>
    rintro _ ⟨⟩
    obtain ⟨hOrder, hAhead⟩ := ha _ rfl
    exact ⟨(List.pairwise_cons.mp hOrder).2, fun v hv => hAhead v (List.mem_cons_of_mem _ hv)⟩
  | _ => rintro _ ⟨⟩

/-- Whatever happens to the VM list meanwhile: paths do not change and
registrations stay. -/
theorem AllocCall.Walks.exec (h : a.Walks s) (op : Op) : a.Walks (op.exec s) := by
  intro vms hpc
  obtain ⟨hOrder, hAhead⟩ := h vms hpc
  rw [pathOf_exec]
  exact ⟨hOrder, fun v hv => ⟨mem_registered_exec (hAhead v hv).1 op, (hAhead v hv).2⟩⟩

/-- Each step of a grant lowers the bound, whatever the VMs there are now: they
only have to be among those that are counted. -/
theorem AllocCall.Step.stepsLeft_lt {vms : List VmId} (hVms : ∀ v ∈ s.registered, v ∈ vms)
    (h : AllocCall.Step s a op a') (ha : a.Walks s) (ha' : a'.Walks s) :
    a'.stepsLeft s.pathOf vms < a.stepsLeft s.pathOf vms ∧ a'.rest.length ≤ a.rest.length := by
  cases h with
  | @look backed rest last =>
    refine ⟨?_, le_refl _⟩
    cases hScan : candidates s last with
    | nil =>
      simp only [AllocCall.stepsLeft]
      omega
    | cons v tail =>
      rw [hScan] at ha'
      obtain ⟨-, hAhead⟩ := ha' _ rfl
      obtain ⟨hMem, hPast⟩ := hAhead v (List.mem_cons_self ..)
      have hLt : beyond s.pathOf vms (some (s.pathOf v)) < beyond s.pathOf vms last :=
        beyond_lt (hVms v hMem) hPast
      simp only [AllocCall.stepsLeft]
      omega
  | @full backed rest last v tail =>
    refine ⟨?_, le_refl _⟩
    cases tail with
    | nil =>
      simp only [AllocCall.stepsLeft]
      omega
    | cons w tail =>
      obtain ⟨hOrder, hAhead⟩ := ha _ rfl
      have hNext := (List.pairwise_cons.mp hOrder).1 w (List.mem_cons_self ..)
      have hMem := (hAhead w (List.mem_cons_of_mem _ (List.mem_cons_self ..))).1
      have hLt : beyond s.pathOf vms (some (s.pathOf w)) < beyond s.pathOf vms (some (s.pathOf v)) :=
        beyond_lt (hVms w hMem) fun p hp => by
          cases hp
          exact hNext
      simp only [AllocCall.stepsLeft]
      omega
  | refused _ =>
    simp only [AllocCall.stepsLeft, Shared.pathOf]
    omega
  | allLive =>
    simp only [AllocCall.stepsLeft, Shared.pathOf, List.length_nil]
    omega
  | someAbandoned =>
    simp only [AllocCall.stepsLeft, GiveBack.left]
    omega
  | giveBack hg =>
    have hLt := hg.left_lt
    simp only [AllocCall.stepsLeft]
    omega
  | _ =>
    simp [AllocCall.stepsLeft]
    try omega

end Grant

-- ---------------------------------------------------------------------------
-- The steps of a thread
-- ---------------------------------------------------------------------------

def Request.Walks (s : Shared) (q : Request) : Prop :=
  ∀ call rsvd, q.pc = .allocate call rsvd → call.Walks s

section Threads

variable {tid : Tid} {s : Shared} {op : Op} {vms : List VmId}

/-- A request starts its grant at the first VM. -/
theorem Request.Step.walks {q q' : Request} {waits : List VmId} (hLife : LifeOk s waits)
    (h : Request.Step tid s q op q') (hq : q.Walks s) : q'.Walks s := by
  cases h with
  | reserved =>
    rintro _ _ ⟨⟩ _ ⟨⟩
  | allocate hStep =>
    rintro _ _ ⟨⟩
    exact hStep.walks hLife (hq _ _ rfl)
  | allLive =>
    intro call rsvd hpc
    simp only [afterDead] at hpc
    split at hpc <;> cases hpc
  | returnedDead _ =>
    intro call rsvd hpc
    simp only [afterDead] at hpc
    split at hpc <;> cases hpc
  | _ => rintro _ _ ⟨⟩

/-- What is left after the dead allocations is a step for each that lives and
their return. -/
theorem Request.stepsLeft_afterDead (path : VmId → SocketPath) (vms : List VmId) (c : VmId)
    (live : List AllocId) :
    Request.stepsLeft path vms ⟨c, Request.afterDead live⟩ ≤ 21 * live.length + 8 := by
  unfold Request.afterDead
  split
  · simp [Request.stepsLeft]
  · simp only [Request.stepsLeft]
    omega

/-- A round of reservations takes whole chunks off what remains. -/
theorem chunks_left (s : Shared) (c : VmId) (remaining : Nat) :
    (remaining - (s.newOffsets c remaining).length * granularity) / granularity +
      (s.newOffsets c remaining).length = remaining / granularity := by
  have hLe : (s.newOffsets c remaining).length * granularity ≤ remaining :=
    length_reserveOffsets_le ..
  rw [Nat.mul_comm, Nat.sub_mul_div, Nat.mul_comm] at *
  exact Nat.sub_add_cancel ((Nat.le_div_iff_mul_le granularity_pos).mpr hLe)

/-- Every step of a request brings it nearer to its end. -/
theorem Request.Step.stepsLeft_lt (hVms : ∀ v ∈ s.registered, v ∈ vms) {q q' : Request}
    (h : Request.Step tid s q op q') (hq : q.Walks s) (hq' : q'.Walks s) :
    q'.stepsLeft s.pathOf vms < q.stepsLeft s.pathOf vms := by
  cases h with
  | tooLarge =>
    simp only [Request.stepsLeft]
    omega
  | rounded hSize =>
    simp only [Request.stepsLeft, hSize, Option.getD_some, List.length_nil]
    omega
  | @reserve c remaining rsvd _ hNew =>
    have hChunks := chunks_left s c remaining
    have hPos := List.length_pos_iff.mpr hNew
    have hIds : (s.newIds c remaining).length = (s.newOffsets c remaining).length :=
      List.length_range' ..
    simp only [Request.stepsLeft, List.length_append, hIds]
    omega
  | reserved =>
    simp only [Request.stepsLeft, AllocCall.stepsLeft, AllocCall.start, beyond_none]
    omega
  | allocate hStep =>
    have hLt := hStep.stepsLeft_lt hVms (hq _ _ rfl) (hq' _ _ rfl)
    simp only [Request.stepsLeft]
    omega
  | allocated hDone =>
    simp only [Request.stepsLeft, ReleaseCall.left]
    omega
  | drop hStep =>
    have hLt := hStep.left_lt
    simp only [Request.stepsLeft]
    omega
  | addFailed =>
    simp only [Request.stepsLeft, ReturnCall.left_start]
    omega
  | @allLive c live =>
    have hLe := Request.stepsLeft_afterDead s.pathOf vms c live
    refine lt_of_le_of_lt hLe ?_
    simp only [Request.stepsLeft]
    omega
  | someDead =>
    simp only [Request.stepsLeft, ReturnCall.left_start, List.length_nil]
    omega
  | returnDead hStep =>
    have hLt := hStep.left_lt
    simp only [Request.stepsLeft]
    omega
  | @returnedDead c call live hDone =>
    have hLe := Request.stepsLeft_afterDead s.pathOf vms c live
    refine lt_of_le_of_lt hLe ?_
    simp only [Request.stepsLeft]
    omega
  | respondFailed =>
    simp only [Request.stepsLeft, ReturnCall.left_start, List.length_cons]
    omega
  | returnAll hStep =>
    have hLt := hStep.left_lt
    simp only [Request.stepsLeft]
    omega
  | _ =>
    simp only [Request.stepsLeft, List.length_cons, List.length_append, List.length_nil]
    omega

/-- Every step of a revoke does, as long as no books have more than `n` entries. -/
theorem Revoke.Step.stepsLeft_lt {n : Nat} {v v' : Revoke} (h : Revoke.Step tid s v op v')
    (hBooks : ∀ d r, s.region? d = some r → r.allocations.values.length ≤ n) :
    v'.stepsLeft n < v.stepsLeft n := by
  cases h with
  | @enter d size aligned r _ _ hr =>
    have hLe := hBooks d r hr
    simp only [Revoke.stepsLeft, List.length_reverse, List.length_nil]
    omega
  | enough _ =>
    simp only [Revoke.stepsLeft, ReturnCall.left_start]
    omega
  | giveBack hStep =>
    have hLt := hStep.left_lt
    simp only [Revoke.stepsLeft]
    omega
  | _ =>
    simp only [Revoke.stepsLeft, List.length_cons, List.length_append, List.length_nil]
    omega

end Threads

-- ---------------------------------------------------------------------------
-- The system
-- ---------------------------------------------------------------------------

/-- The steps left to a thread, when there are VMs `vms` and `n` allocations. The
event handler has up to two steps to an event; the VM detection thread has no
bound. -/
def Task.stepsLeft (path : VmId → SocketPath) (vms : List VmId) (n : Nat) : Task → Nat
  | .events .idle => 0
  | .events (.signalAdd _ _ _) => 2
  | .events _ => 1
  | .detection _ => 0
  | .request q => q.stepsLeft path vms
  | .revoke v => v.stepsLeft n

def Task.Walks (s : Shared) : Task → Prop
  | .request q => q.Walks s
  | _ => True

/-- Every grant walks on in path order. -/
structure WalkInv (s : System) : Prop where
  core : CoreInv s
  life : LifeInv s
  walks : ∀ (i : Nat) t, s.tasks[i]? = some t → t.Walks s.shared

section Move

variable {s s' : System} {op : Op}

/-- The walks go on whoever moves. -/
theorem Task.Walks.exec {u : Shared} {t : Task} (h : t.Walks u) (op : Op) :
    t.Walks (op.exec u) := by
  cases t with
  | request q => exact fun call rsvd hpc => (h call rsvd hpc).exec op
  | _ => trivial

/-- A thread's walk goes on in path order, whichever step it makes. -/
theorem Task.Step.walks {tid : Tid} {u : Shared} {t t' : Task} {started : List Task}
    {waits : List VmId} (hLife : LifeOk u waits) (h : Task.Step tid u t op t' started)
    (ht : t.Walks u) : t'.Walks u := by
  cases h with
  | request hq => exact hq.walks hLife ht
  | _ => trivial

/-- The invariants the bound rests on hold on together. -/
theorem WalkInv.move (h : WalkInv s) (hm : orchestrator.Move s op s') : WalkInv s' := by
  refine ⟨h.core.move hm, h.life.move hm, ?_⟩
  refine forall_tasks (J := fun _ u t => t.Walks u) hm h.walks
    (fun i t t' started ht hs => ⟨(hs.walks h.life.life (h.walks i t ht)).exec op, fun j u hu => ?_⟩)
    (fun started hs j u hu => ?_) (fun j u _ hu => hu.exec op)
  · cases hs with
    | events _ =>
      obtain ⟨v, -, rfl⟩ := List.mem_map.mp hu
      trivial
    | _ => cases hu
  · cases hs with
    | request =>
      rw [List.mem_singleton.mp hu]
      rintro _ _ ⟨⟩
    | _ => cases hu

theorem walkInv_init {vm : VmId → Vm} {donor : VmId → DonorState} (hFresh : FreshDonors donor) :
    WalkInv (initSystem vm donor) where
  core := coreInv_init hFresh
  life := lifeInv_init vm donor
  walks i t ht := by
    have hMem := List.mem_of_getElem? ht
    simp only [initSystem, List.mem_cons, List.not_mem_nil, or_false] at hMem
    rcases hMem with rfl | rfl <;> trivial

theorem Reachable.walkInv (h : Reachable s) : WalkInv s := by
  obtain ⟨vm, donor, hFresh, hRun⟩ := h
  exact hRun.invariant (fun _ _ _ hInv hm _ => hInv.move hm) (walkInv_init hFresh)

/-- The books of a region hold each allocation once. -/
theorem CoreInv.length_books_le (h : CoreInv s) {d : DonorAllocation} {r : DonatableRegion}
    (hr : s.shared.region? d = some r) : r.allocations.values.length ≤ s.shared.nextId := by
  have hNodup := values_nodup (h.accounting.books d r hr)
  have hLe := (List.subperm_of_subset hNodup fun x hx =>
    List.mem_range.mpr (h.booksKnown d r hr x hx)).length_le
  rwa [List.length_range] at hLe

/-- The system is on its way to having `vms` and `n` allocations. -/
structure Within (vms : List VmId) (n : Nat) (s : System) : Prop where
  registered : ∀ v ∈ s.shared.registered, v ∈ vms
  nextId : s.shared.nextId ≤ n

/-- What a later state is within, an earlier one is. -/
theorem Within.back {vms : List VmId} {n : Nat} (hm : orchestrator.Move s op s')
    (h : Within vms n s') : Within vms n s := by
  have hShared : s'.shared = op.exec s.shared := hm.shared_eq
  obtain ⟨hReg, hNext⟩ := h
  rw [hShared] at hReg hNext
  exact ⟨fun v hv => hReg v (mem_registered_exec hv op),
    le_trans (evolves_exec op s.shared).nextId hNext⟩

/-- The thread handles a request or a revoke. -/
def Task.serves : Task → Bool
  | .request _ | .revoke _ => true
  | _ => false

/-- Each step of a request or a revoke lowers its bound. -/
theorem Task.Step.stepsLeft_lt {vms : List VmId} {n : Nat} (h : WalkInv s)
    (hWithin : Within vms n s) {i : Nat} {t t' : Task} {started : List Task}
    (ht : s.tasks[i]? = some t) (hs : Task.Step i s.shared t op t' started)
    (hServes : t.serves = true) :
    t'.serves = true ∧ t'.stepsLeft s.shared.pathOf vms n < t.stepsLeft s.shared.pathOf vms n := by
  have hWalks := h.walks i t ht
  have hWalks' := hs.walks h.life.life hWalks
  cases hs with
  | events _ => cases hServes
  | detection _ => cases hServes
  | request hq => exact ⟨rfl, hq.stepsLeft_lt hWithin.registered hWalks hWalks'⟩
  | revoke hv =>
    exact ⟨rfl, hv.stepsLeft_lt fun d r hr => le_trans (h.core.length_books_le hr) hWithin.nextId⟩

/-- No VM changes its path. -/
theorem pathOf_move (hm : orchestrator.Move s op s') : s'.shared.pathOf = s.shared.pathOf := by
  have hShared : s'.shared = op.exec s.shared := hm.shared_eq
  rw [hShared, pathOf_exec]

/-- How often a request or a revoke moves in a run. -/
theorem WalkInv.moves_le {ls : List (Label Op Choice)} (h : WalkInv s)
    (hRun : orchestrator.run s ls = some s') {i : Nat} {t : Task} (ht : s.tasks[i]? = some t)
    (hServes : t.serves = true) :
    ls.countP (Label.isOf i) ≤
      t.stepsLeft s.shared.pathOf s'.shared.registered s'.shared.nextId := by
  refine Machine.own_moves_le
    (I := fun c => WalkInv c ∧ c.shared.pathOf = s.shared.pathOf)
    (Q := Within s'.shared.registered s'.shared.nextId) (P := fun t => t.serves = true)
    (fun c op d hI hm => ⟨hI.1.move hm, (pathOf_move hm).trans hI.2⟩)
    (fun c op d hm hQ => hQ.back hm) (fun c t ch op t' started hI hQ ht hn hP => ?_)
    hRun ⟨h, rfl⟩ ⟨fun _ hv => hv, le_refl _⟩ ht hServes
  rw [← hI.2]
  exact (Task.step_of_next hn).stepsLeft_lt hI.1 hQ ht hP

end Move

/-- **Threads end.** In every run, from any reachable state and whatever the
other threads, QEMU and the guests do in it: a request makes at most 28 steps
for each chunk asked for, 16 for each VM there has been and 30 more, a revoke
21 for each allocation there has been and 28 more (`nextId` is one more than
these). -/
theorem threads_end {s s' : System} {ls : List (Label Op Choice)} (h : Reachable s)
    (hRun : orchestrator.run s ls = some s') {i : Nat} :
    (∀ c size, s.tasks[i]? = some (.request ⟨c, .start size⟩) →
      ls.countP (Label.isOf i) ≤ 28 * ((checkedNextMultipleOf size).getD 0 / granularity) +
        16 * s'.shared.registered.length + 30) ∧
    (∀ d size, s.tasks[i]? = some (.revoke ⟨d, .start size⟩) →
      ls.countP (Label.isOf i) ≤ 21 * s'.shared.nextId + 7) :=
  ⟨fun _ _ ht => h.walkInv.moves_le hRun ht rfl, fun _ _ ht => h.walkInv.moves_le hRun ht rfl⟩

/-- VM 1 has just asked for a chunk. -/
def demoAsking : System := demoAfter (demoQuiet.take 3)

theorem demoAsking_reachable : Reachable demoAsking := demo_reachable (by decide +kernel)

theorem demoAsking_runs : (orchestrator.run demoAsking (demoQuiet.drop 3)).isSome = true := by
  decide +kernel

/-- The request is over after 24 steps; the bound is 90. -/
theorem threads_end_asking :
    (demoQuiet.drop 3).countP (Label.isOf 2) = 24 ∧
    ∃ s', orchestrator.run demoAsking (demoQuiet.drop 3) = some s' ∧
      (demoQuiet.drop 3).countP (Label.isOf 2) ≤
        28 * ((checkedNextMultipleOf granularity).getD 0 / granularity) +
          16 * s'.shared.registered.length + 30 := by
  obtain ⟨s', hRun⟩ := Option.isSome_iff_exists.mp demoAsking_runs
  have hTask : demoAsking.tasks[2]? = some (.request ⟨1, .start granularity⟩) := by
    decide +kernel
  exact ⟨by decide +kernel, s', hRun, (threads_end demoAsking_reachable hRun).1 1 _ hTask⟩

end EphMemory.Orchestrator
