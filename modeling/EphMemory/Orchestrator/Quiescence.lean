import EphMemory.Orchestrator.Ending
import EphMemory.Orchestrator.Locks

/-!
# Orchestrator — coming to rest

When no VM comes or goes and nothing comes in from outside any more, no request
and no event, the orchestrator stops after finitely many steps, and where it
stops everything is done: no request and no revoke is left hanging, no event
unread.

* `toReserve`, `capacity` — the allocations there can be in the end;
* `work` — bounds the steps of all threads together;
* `RestInv`, `RestInv.fire` — each step lowers the bound;
* `comes_to_rest` — the run ends, and how.
-/

namespace EphMemory.Orchestrator

open EphMemory.Lib

-- ---------------------------------------------------------------------------
-- What is still to come
-- ---------------------------------------------------------------------------

/-- The chunks a request may still reserve. -/
def Task.toReserve : Task → Nat
  | .request ⟨_, .start size⟩ => (checkedNextMultipleOf size).getD 0 / granularity
  | .request ⟨_, .reserve remaining _⟩ => remaining / granularity
  | _ => 0

/-- The allocations there can be when nobody asks for more. -/
def capacity (s : System) : Nat := s.shared.nextId + (s.tasks.map Task.toReserve).sum

/-- More than the steps an event takes, with those of the revoke it may start. -/
def eventWork (n : Nat) : Nat := 21 * n + 8

/-- More than the steps left to all threads, when there are VMs `vms` and `n`
allocations. -/
def workLeft (vms : List VmId) (n : Nat) (s : System) : Nat :=
  (s.tasks.map (Task.stepsLeft s.shared.pathOf vms n)).sum + eventWork n * s.shared.events.length

def work (s : System) : Nat := workLeft s.shared.registered (capacity s) s

section Steps

variable {tid : Tid} {s : Shared} {t t' : Task} {op : Op} {started : List Task}

theorem toReserve_afterDead (c : VmId) (live : List AllocId) :
    (Task.request ⟨c, Request.afterDead live⟩).toReserve = 0 := by
  unfold Request.afterDead
  split <;> rfl

/-- Only a request makes allocations. -/
theorem nextId_of_performer (h : op.performer ≠ .request) : (op.exec s).nextId = s.nextId :=
  nextId_exec fun c size hOp => h (by rw [hOp]; rfl)

/-- What a request creates it had yet to reserve. -/
theorem Request.Step.toReserve_le {q q' : Request} (h : Request.Step tid s q op q') :
    (Task.request q').toReserve + (op.exec s).nextId ≤ (Task.request q).toReserve + s.nextId := by
  cases h with
  | rounded hSize =>
    simp only [Task.toReserve, hSize, Option.getD_some]
    exact le_refl _
  | @reserve c remaining rsvd _ _ =>
    have hChunks := chunks_left s c remaining
    have hNext : ((Op.reserveMemoryContig c remaining).exec s).nextId =
        s.nextId + (s.newOffsets c remaining).length := rfl
    simp only [Task.toReserve, hNext]
    omega
  | allocate hc =>
    rw [nextId_exec fun c size hOp => by subst hOp; cases hc with | giveBack hg => cases hg]
    exact Nat.add_le_add_right (Nat.zero_le _) _
  | drop hr =>
    rw [nextId_of_performer (by rw [hr.performer]; simp)]
    exact Nat.add_le_add_right (Nat.zero_le _) _
  | returnDead hr =>
    rw [nextId_of_performer (by rw [hr.performer]; simp)]
    exact Nat.add_le_add_right (Nat.zero_le _) _
  | returnAll hr =>
    rw [nextId_of_performer (by rw [hr.performer]; simp)]
    exact Nat.add_le_add_right (Nat.zero_le _) _
  | allLive =>
    rw [toReserve_afterDead]
    exact Nat.add_le_add_right (Nat.zero_le _) _
  | returnedDead _ =>
    rw [toReserve_afterDead]
    exact Nat.add_le_add_right (Nat.zero_le _) _
  | _ => exact Nat.add_le_add_right (Nat.zero_le _) _

/-- What a thread reserves is taken from what it may still reserve. -/
theorem Task.Step.toReserve_le (h : Task.Step tid s t op t' started) :
    t'.toReserve + (started.map Task.toReserve).sum + (op.exec s).nextId ≤
      t.toReserve + s.nextId := by
  cases h with
  | events hl =>
    rw [nextId_of_performer (by rw [hl.performer]; simp)]
    have hStarted : ∀ l : List Revoke, ((l.map Task.revoke).map Task.toReserve).sum = 0 := by
      intro l
      rw [List.map_map]
      exact List.sum_eq_zero fun n hn => by
        obtain ⟨v, -, rfl⟩ := List.mem_map.mp hn
        rfl
    rw [hStarted]
    exact le_refl _
  | detection hl =>
    rw [nextId_of_performer (by rcases hl.performer with h | h <;> simp [h])]
    simp [Task.toReserve]
  | request hq => exact hq.toReserve_le
  | revoke hv =>
    rw [nextId_of_performer (by rcases hv.performer with h | h <;> simp [h])]
    simp [Task.toReserve]

/-- Without a step from outside the channel only becomes shorter. -/
theorem events_kept (hTaken : op ≠ .nextEvent) (hInside : op.performer ≠ .outside) :
    (op.exec s).events = s.events := by
  have hChange := channelChange_exec op s
  generalize (op.exec s).vmList = vmList at hChange
  generalize (op.exec s).events = events at hChange ⊢
  cases hChange with
  | taken => exact absurd rfl hTaken
  | acknowledged => exact absurd rfl hInside
  | released => exact absurd rfl hInside
  | revoked => exact absurd rfl hInside
  | _ => rfl

/-- An event that is taken pays for its handling. -/
theorem EventLoop.Step.stepsLeft_lt {l l' : EventLoop} {revokes : List Revoke}
    (h : EventLoop.Step s l op l' revokes) (hUnread : l = .idle → s.events ≠ [])
    (path : VmId → SocketPath) (vms : List VmId) (n : Nat) :
    (Task.events l').stepsLeft path vms n + (revokes.map (Revoke.stepsLeft n)).sum +
        eventWork n * (op.exec s).events.length <
      (Task.events l).stepsLeft path vms n + eventWork n * s.events.length := by
  have hTake : l = .idle → op = .nextEvent →
      eventWork n * (op.exec s).events.length + eventWork n = eventWork n * s.events.length := by
    rintro hIdle rfl
    obtain ⟨e, rest, hEvents⟩ := List.exists_cons_of_ne_nil (hUnread hIdle)
    have hRest : (Op.nextEvent.exec s).events = rest := by
      show s.events.tail = rest
      rw [hEvents]
      rfl
    rw [hRest, hEvents, List.length_cons, Nat.mul_succ]
  have hWork : 2 < eventWork n := by
    unfold eventWork
    omega
  cases h with
  | ignored =>
    have hTaken := hTake rfl rfl
    simp only [Task.stepsLeft, List.map_nil, List.sum_nil]
    omega
  | addEvent _ _ =>
    have hTaken := hTake rfl rfl
    simp only [Task.stepsLeft, List.map_nil, List.sum_nil]
    omega
  | releaseEvent _ _ =>
    have hTaken := hTake rfl rfl
    simp only [Task.stepsLeft, List.map_nil, List.sum_nil]
    omega
  | revokeEvent _ _ =>
    have hTaken := hTake rfl rfl
    simp only [Task.stepsLeft, Revoke.stepsLeft, List.map_cons, List.map_nil, List.sum_cons,
      List.sum_nil]
    unfold eventWork at hTaken ⊢
    omega
  | signalAdd _ hl =>
    rw [events_kept (by simp) (by simp [Op.performer])]
    rcases hl with rfl | ⟨gaps, rfl⟩ <;> simp [Task.stepsLeft]
  | releaseGaps =>
    rw [events_kept (by simp) (by simp [Op.performer])]
    simp [Task.stepsLeft]
  | signalRelease _ =>
    rw [events_kept (by simp) (by simp [Op.performer])]
    simp [Task.stepsLeft]

/-- A step of a thread other than the VM detection thread lowers what is left. -/
theorem Task.Step.work_lt {c : System} {vms : List VmId} {n : Nat} (h : WalkInv c)
    (hWithin : Within vms n c) {i : Nat} (ht : c.tasks[i]? = some t)
    (hs : Task.Step i c.shared t op t' started) (hNot : ∀ l, t ≠ .detection l)
    (hUnread : t = .events .idle → c.shared.events ≠ []) :
    t'.stepsLeft c.shared.pathOf vms n + (started.map (Task.stepsLeft c.shared.pathOf vms n)).sum +
        eventWork n * (op.exec c.shared).events.length <
      t.stepsLeft c.shared.pathOf vms n + eventWork n * c.shared.events.length := by
  have hServed : t.serves = true → started = [] →
      t'.stepsLeft c.shared.pathOf vms n +
        (started.map (Task.stepsLeft c.shared.pathOf vms n)).sum +
        eventWork n * (op.exec c.shared).events.length <
      t.stepsLeft c.shared.pathOf vms n + eventWork n * c.shared.events.length := by
    intro hServes hStarted
    have hLt := (hs.stepsLeft_lt h hWithin ht hServes).2
    have hTaken : op ≠ .nextEvent := by
      rintro rfl
      obtain ⟨l, l', spawned, rfl, -⟩ := hs.handler rfl
      cases hServes
    rw [hStarted, events_kept hTaken hs.not_outside, List.map_nil, List.sum_nil]
    omega
  cases hs with
  | events hl =>
    have hLt := hl.stepsLeft_lt (fun hIdle => hUnread (by rw [hIdle])) c.shared.pathOf vms n
    rw [List.map_map]
    exact hLt
  | detection _ => exact absurd rfl (hNot _)
  | request hq => exact hServed rfl rfl
  | revoke hv => exact hServed rfl rfl

end Steps

-- ---------------------------------------------------------------------------
-- Coming to rest
-- ---------------------------------------------------------------------------

/-- A run from `s` in which no VM comes or goes and nothing comes in from outside. -/
structure RestInv (s c : System) : Prop where
  reachable : Reachable c
  idle : c.tasks[1]? = some (.detection .idle)
  path : c.shared.pathOf = s.shared.pathOf
  registered : c.shared.registered = s.shared.registered
  capacity : capacity c ≤ capacity s

/-- A move of a thread, the VM detection thread apart, and none from outside. -/
def ownStep : Label Op Choice → Bool
  | .task i _ => decide (i ≠ 1)
  | .outside _ => false

section Rest

variable {s c d : System} {l : Label Op Choice}

/-- Every step of a thread does some of the work that is left. -/
theorem RestInv.fire (h : RestInv s c) (hl : ownStep l = true)
    (hFire : orchestrator.fire c l = some d) :
    RestInv s d ∧ workLeft s.shared.registered (Orchestrator.capacity s) d <
      workLeft s.shared.registered (Orchestrator.capacity s) c := by
  obtain ⟨i, ch, rfl, hi⟩ : ∃ i ch, l = .task i ch ∧ i ≠ 1 := by
    cases l with
    | task i ch => exact ⟨i, ch, rfl, of_decide_eq_true hl⟩
    | outside op => cases hl
  obtain ⟨t, op, t', started, ht, hn, -, rfl⟩ := Machine.fire_task hFire
  have hs := Task.step_of_next hn
  have hInv := h.reachable.walkInv
  have hMove : orchestrator.Move c op ⟨op.exec c.shared, c.tasks.set i t' ++ started⟩ :=
    .task ht hn
  have hNot : ∀ l, t ≠ .detection l := by
    rintro l rfl
    exact hi (hInv.life.sole.sole i l ht)
  have hSettled : op.settled = true := by
    rcases hs.kind.1 with ⟨m, m', hm, -⟩ | ⟨hSettled, -⟩
    · exact absurd hm (hNot m)
    · exact hSettled
  have hPath : (op.exec c.shared).pathOf = c.shared.pathOf := pathOf_exec op c.shared
  have hCapacity : Orchestrator.capacity ⟨op.exec c.shared, c.tasks.set i t' ++ started⟩ ≤
      Orchestrator.capacity c := by
    have hLe := hs.toReserve_le
    have hSum := sum_set (f := Task.toReserve) ht t'
    simp only [Orchestrator.capacity, List.map_append, List.sum_append]
    omega
  have hWithin : Within s.shared.registered (Orchestrator.capacity s) c := by
    refine ⟨fun v hv => h.registered ▸ hv, le_trans ?_ h.capacity⟩
    exact Nat.le_add_right ..
  refine ⟨⟨?_, ?_, ?_, ?_, ?_⟩, ?_⟩
  · obtain ⟨vm, donor, hFresh, hRun⟩ := h.reachable
    exact ⟨vm, donor, hFresh, hRun.tail hMove trivial⟩
  · exact Machine.getElem?_set_append_ne hi h.idle
  · exact hPath.trans h.path
  · exact (settled_exec hSettled c.shared).2.1.trans h.registered
  · exact le_trans hCapacity h.capacity
  · have hUnread : t = .events .idle → c.shared.events ≠ [] := by
      rintro rfl hNone
      simp only [Task.next, EventLoop.next, orchestrator, hNone] at hn
      cases hn
    have hLt := hs.work_lt hInv hWithin ht hNot hUnread
    have hSum := sum_set
      (f := Task.stepsLeft c.shared.pathOf s.shared.registered (Orchestrator.capacity s)) ht t'
    show ((c.tasks.set i t' ++ started).map (Task.stepsLeft (op.exec c.shared).pathOf _ _)).sum +
      _ * (op.exec c.shared).events.length < _
    rw [hPath, List.map_append, List.sum_append]
    unfold workLeft
    omega

/-- With the detection at rest, the state is one to come to rest from. -/
theorem RestInv.init (h : Reachable s) (hIdle : s.tasks[1]? = some (.detection .idle)) :
    RestInv s s :=
  ⟨h, hIdle, rfl, rfl, le_refl _⟩

/-- The first thread is the event handler. -/
theorem Reachable.handler (h : Reachable s) : ∃ l, s.tasks[0]? = some (.events l) := by
  obtain ⟨vm, donor, -, hRun⟩ := h
  refine hRun.invariant (I := fun s => ∃ l, s.tasks[0]? = some (.events l))
    (fun c op d hc hm _ => ?_) ⟨.idle, rfl⟩
  obtain ⟨l, hl⟩ := hc
  rcases move_cases hm with ⟨i, t, t', started, ht, hs, hd⟩ | ⟨started, -, hd⟩
  · rw [hd]
    by_cases hi : i = 0
    · subst hi
      cases ht.symm.trans hl
      cases hs with
      | events _ => exact ⟨_, Machine.getElem?_set_append_self ht⟩
    · exact ⟨l, Machine.getElem?_set_append_ne hi hl⟩
  · rw [hd]
    exact ⟨l, (List.getElem?_append_left (List.getElem?_eq_some_iff.mp hl).1).trans hl⟩

/-- Where no thread but the VM detection thread can move, all locks are free. -/
theorem RestInv.free (h : RestInv s c)
    (hStuck : ∀ (i : Nat) ch, i ≠ 1 → orchestrator.fire c (.task i ch) = none) :
    c.shared.Free := by
  have hLaw := h.reachable.guardLaw
  have hClosed : openMoves c = 0 := by
    by_contra hOpen
    obtain ⟨i, t, ch, op, t', ht, hSpan, hNext, -⟩ :=
      hLaw.inner_move (Nat.pos_of_ne_zero hOpen)
    have hi : i ≠ 1 := by
      rintro rfl
      cases h.idle.symm.trans ht
      exact absurd hSpan (Nat.lt_irrefl 0)
    have hNone := hStuck i ch hi
    rw [Machine.fire_of_next (M := orchestrator) ht hNext] at hNone
    cases hNone
  intro g
  rw [hLaw g]
  refine Machine.weigh_eq_zero fun t ht => Task.inside_of_span ?_
  exact List.sum_eq_zero_iff.mp hClosed _ (List.mem_map_of_mem ht)

/-- Where no thread but the VM detection thread can move, all is done. -/
theorem RestInv.over (h : RestInv s c)
    (hStuck : ∀ (i : Nat) ch, i ≠ 1 → orchestrator.fire c (.task i ch) = none) :
    (∀ t ∈ c.tasks, t.over = true) ∧ c.shared.events = [] := by
  have hFree := h.free hStuck
  have hRest : ∀ (i : Nat) t, i ≠ 1 → c.tasks[i]? = some t → t.AtRest c.shared := by
    intro i t hi ht
    by_contra hBusy
    obtain ⟨ch, op, t', started, hNext⟩ := Task.free_next i hFree hBusy
    have hNone := hStuck i ch hi
    rw [Machine.fire_of_next (M := orchestrator) ht hNext] at hNone
    cases hNone
  constructor
  · intro t hMem
    obtain ⟨i, ht⟩ := List.getElem?_of_mem hMem
    by_cases hi : i = 1
    · subst hi
      cases h.idle.symm.trans ht
      rfl
    · have hAtRest := hRest i t hi ht
      cases t with
      | events l => rfl
      | detection l => exact hAtRest.elim
      | request q => exact decide_eq_true hAtRest
      | revoke v => exact decide_eq_true hAtRest
  · obtain ⟨l, hl⟩ := h.reachable.handler
    exact (hRest 0 _ Nat.zero_ne_one hl).2

end Rest

/-- **The system comes to rest.** From a reachable state in which no VM is being
removed, as long as no VM comes or goes and nothing comes in from outside, also
no acknowledgement of QEMU's: the threads make no more than `work s` steps, and
where none of them can go on every request and every revoke has ended and no
event is left. -/
theorem comes_to_rest {s s' : System} {ls : List (Label Op Choice)} (h : Reachable s)
    (hIdle : s.tasks[1]? = some (.detection .idle)) (hRun : orchestrator.run s ls = some s')
    (hOwn : ∀ l ∈ ls, ownStep l = true) :
    ls.length ≤ work s ∧
    ((∀ (i : Nat) ch, i ≠ 1 → orchestrator.fire s' (.task i ch) = none) →
      (∀ t ∈ s'.tasks, t.over = true) ∧ s'.shared.events = []) := by
  obtain ⟨hInv, hLe⟩ := Machine.moves_le (I := RestInv s) (P := fun l => ownStep l = true)
    (m := workLeft s.shared.registered (capacity s))
    (fun c l d hI hl hFire => hI.fire hl hFire) hRun hOwn (RestInv.init h hIdle)
  exact ⟨le_trans (Nat.le_add_right ..) hLe, hInv.over⟩

/-- The request of VM 1 waits for its chunk, and QEMU's acknowledgement for the
event handler. -/
def demoWaiting : System := demoAfter (demoQuiet.take 22)

theorem demoWaiting_reachable : Reachable demoWaiting := demo_reachable (by decide +kernel)

def demoWaited : System := orchestrator.after demoWaiting (demoQuiet.drop 22)

/-- Eight steps later nothing is left; the bound is larger. -/
theorem comes_to_rest_told :
    (demoQuiet.drop 22).length = 8 ∧ 8 ≤ work demoWaiting ∧
      (∀ t ∈ demoWaited.tasks, t.over = true) ∧ demoWaited.shared.events = [] := by
  have hRun : orchestrator.run demoWaiting (demoQuiet.drop 22) = some demoWaited := by
    have hSome : (orchestrator.run demoWaiting (demoQuiet.drop 22)).isSome = true := by
      decide +kernel
    obtain ⟨s', hs'⟩ := Option.isSome_iff_exists.mp hSome
    rw [demoWaited, Machine.after, hs', Option.getD_some]
  have hOwn : ∀ l ∈ demoQuiet.drop 22, ownStep l = true := by decide +kernel
  have hTasks : demoWaited.tasks =
      [.events .idle, .detection .idle, .request ⟨1, .returned⟩] := by decide +kernel
  have hEvents : demoWaited.shared.events = [] := by decide +kernel
  have hStuck : ∀ (i : Nat) ch, i ≠ 1 → orchestrator.fire demoWaited (.task i ch) = none := by
    intro i ch hi
    rcases i with - | - | - | i
    · simp [Machine.fire, hTasks, orchestrator, Task.next, EventLoop.next, hEvents]
    · exact absurd rfl hi
    · simp [Machine.fire, hTasks, orchestrator, Task.next, Request.next]
    · simp [Machine.fire, hTasks]
  obtain ⟨hLe, hOver⟩ :=
    comes_to_rest demoWaiting_reachable (by decide +kernel) hRun hOwn
  exact ⟨by decide +kernel, hLe, hOver hStuck⟩

end EphMemory.Orchestrator
