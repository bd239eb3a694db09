import EphMemory.Lib.Alone
import EphMemory.Orchestrator.Attribution

/-!
# Orchestrator — the teardown of a consumer

`remove_vms` marks a VM as exited and then runs
`ConsumerState::release_all_allocations`, a loop that ends when every entry of
the consumer's map has its release requested. Requesting a release is the work
of `release_reserved_memory`, which `return_eph_memory_from_consumer` calls for
the consumers that have not exited only. So an entry whose release nobody has
requested keeps the loop going for ever.

* `Removal` — the runs of the detection thread up to the end of that loop, with
  everything else that may happen meanwhile;
* `TeardownEnds` — the loop ends, and leaves nothing behind;
* `TornDown.ends` — it does when every entry is requested and abandoned;
* `Spinning` — the states in which it goes on, `Spinning.steps` for ever;
* `teardown_ends_iff` — there is nothing between the two.
-/

namespace EphMemory.Orchestrator

open EphMemory.Lib

-- ---------------------------------------------------------------------------
-- The removal of one consumer
-- ---------------------------------------------------------------------------

/-- From `exited.set` to the end of `release_all_allocations` for `v`, with
`vms` still to be removed. -/
inductive Detection.InLoop (v : VmId) (vms : List VmId) : Detection → Prop
  | enter : InLoop v vms (.removing (v :: vms))
  | look : InLoop v vms (.consumerLoop v vms)
  | give {call : ReturnCall} : InLoop v vms (.consumerReturn call v vms)

/-- The steps of the detection thread there. -/
def Detection.LoopStep (tid : Tid) (v : VmId) (vms : List VmId) (s : Shared) (l : Detection)
    (op : Op) (l' : Detection) : Prop :=
  l.InLoop v vms ∧ ∃ ch, l.next tid s ch = some (op, l')

/-- What else may happen: any step of any thread, wherever it is in its code,
and of the VMs, but no reservation for `v`. -/
def Meanwhile (v : VmId) (s : Shared) (_ : Detection) (op : Op) : Prop :=
  ((∃ tid t ch t' started, Task.next tid s t ch = some (op, t', started)) ∨
    ∃ started, outside s op = some started) ∧
  ∀ size, op ≠ .reserveMemoryContig v size

/-- The runs from the moment `remove_vms` comes to `v`. -/
abbrev Removal (tid : Tid) (v : VmId) (vms : List VmId) (s : Shared) :
    Nat → Shared × Detection → Prop :=
  Runs Op.exec (Detection.LoopStep tid v vms) (Meanwhile v) (s, .removing (v :: vms))

/-- The donor `d` of `x` was sent a return command for it. -/
def HandedBack (s : Shared) (d : DonorAllocation) (x : AllocId) : Prop :=
  ∃ size covers ok, .ephMemReturnCapacity d size covers ok ∈ s.log ∧ x ∈ covers

/-- The loop ends after finitely many steps of its thread, which is never
stuck as long as the mutexes are free, and then no allocation of the map that
`s` holds for `v` is left. -/
structure TeardownEnds (tid : Tid) (v : VmId) (vms : List VmId) (s : Shared) : Prop where
  finite : ∃ bound, ∀ n q, Removal tid v vms s n q → n ≤ bound
  moves : ∀ n u l, Removal tid v vms s n (u, l) → (∀ w, u.consumerLock w = none) →
    (∀ w, u.donorLock w = none) → l ≠ .donorEnter v vms →
      ∃ op l', l.LoopStep tid v vms u op l'
  abandoned : ∀ n u, Removal tid v vms s n (u, .donorEnter v vms) →
    ∀ x ∈ (s.allocatedAreas v).values, (u.alloc x).state = .abandoned
  handedBack : ∀ n u, Removal tid v vms s n (u, .donorEnter v vms) →
    ∀ x ∈ (s.allocatedAreas v).values, (s.alloc x).state = .committed →
      ∀ d, (s.alloc x).donorInfo = some d → s.exited d.donorVm = false → HandedBack u d x

-- ---------------------------------------------------------------------------
-- When every entry is settled
-- ---------------------------------------------------------------------------

/-- Every entry of the map has its release requested and is abandoned. -/
def TornDown (s : Shared) (v : VmId) : Prop :=
  ∀ x ∈ (s.allocatedAreas v).values,
    (s.alloc x).releaseRequested = true ∧ (s.alloc x).state = .abandoned

section TornDown

variable {s u : Shared} {tid : Tid} {v : VmId} {vms : List VmId}

/-- An area of a consumer's map holds an allocation of that consumer. -/
theorem AreasOk.lt_of_mem (h : AreasOk s) {x : AllocId} (hx : x ∈ (s.allocatedAreas v).values) :
    x < s.nextId ∧ (s.alloc x).consumerVm = v := by
  obtain ⟨o, ho⟩ := OrdMap.mem_values_iff.mp hx
  exact ⟨(h v o x ho).1, (h v o x ho).2.1⟩

/-- What stays so after the removal of `v` has begun in `s`. -/
structure Settling (s : Shared) (v : VmId) (u : Shared) : Prop where
  areas : AreasOk u
  device : (u.vm v).consumerSize.isSome = true
  requested : ∀ x ∈ (u.allocatedAreas v).values, (u.alloc x).releaseRequested = true
  abandoned : ∀ x ∈ (s.allocatedAreas v).values, x < u.nextId ∧ (u.alloc x).state = .abandoned

/-- An abandoned allocation stays abandoned. -/
theorem AllocEvolves.abandoned {a a' : EphAllocation} (h : AllocEvolves a a')
    (ha : a.state = .abandoned) : a'.state = .abandoned := by
  have hRank := h.rank
  rw [ha] at hRank
  exact AllocState.eq_abandoned_of_rank hRank

/-- A reservation for another consumer leaves the map of `v` alone. -/
theorem get?_exec_of_not_reserve {op : Op} (hOp : ∀ size, op ≠ .reserveMemoryContig v size)
    {o : Nat} {x : AllocId} (h : ((op.exec u).allocatedAreas v).get? o = some x) :
    (u.allocatedAreas v).get? o = some x := by
  by_cases hReserve : ∃ c size, op = .reserveMemoryContig c size
  · obtain ⟨c, size, rfl⟩ := hReserve
    have hc : v ≠ c := fun hEq => hOp size (by rw [hEq])
    simp only [Op.exec, Shared.reserveMemoryContig] at h
    rw [Function.update_of_ne hc] at h
    exact h
  · exact get?_exec_areas (fun c size hEq => hReserve ⟨c, size, hEq⟩) h

/-- Without new reservations what is settled stays settled. -/
theorem Settling.exec (h : Settling s v u) {op : Op}
    (hOp : ∀ size, op ≠ .reserveMemoryContig v size) : Settling s v (op.exec u) where
  areas := areasOk_exec h.areas op
  device := by rw [(evolves_exec op u).vm]; exact h.device
  requested x hx := by
    obtain ⟨o, ho⟩ := OrdMap.mem_values_iff.mp hx
    have hOld : x ∈ (u.allocatedAreas v).values :=
      OrdMap.mem_values_iff.mpr ⟨o, get?_exec_of_not_reserve hOp ho⟩
    exact ((evolves_exec op u).alloc x (h.areas.lt_of_mem hOld).1).requested (h.requested x hOld)
  abandoned x hx := by
    obtain ⟨hLt, hState⟩ := h.abandoned x hx
    exact ⟨Nat.lt_of_lt_of_le hLt (evolves_exec op u).nextId,
      ((evolves_exec op u).alloc x hLt).abandoned hState⟩

/-- The loop looks once and leaves. -/
inductive Leaving (v : VmId) (vms : List VmId) : Detection → Prop
  | enter : Leaving v vms (.removing (v :: vms))
  | look : Leaving v vms (.consumerLoop v vms)
  | left : Leaving v vms (.donorEnter v vms)

def Detection.lookings : Detection → Nat
  | .removing _ => 2
  | .consumerLoop _ _ => 1
  | _ => 0

/-- Nothing is left to ask for. -/
theorem unrequested_eq_nil (h : Settling s v u) : Detection.unrequested u v = [] := by
  rw [Detection.unrequested, List.filter_eq_nil_iff]
  intro x hx hNot
  rw [EphAllocation.isReleaseRequested, h.requested x hx] at hNot
  cases hNot

/-- A turn of the loop finds nothing to do and brings it nearer to its end. -/
theorem Settling.step {l l' : Detection} {op : Op} (h : Settling s v u) (hl : Leaving v vms l)
    (hStep : l.LoopStep tid v vms u op l') :
    (Settling s v (op.exec u) ∧ Leaving v vms l') ∧ l'.lookings < l.lookings := by
  obtain ⟨hIn, ch, hNext⟩ := hStep
  cases hl with
  | enter =>
    rw [Detection.next, if_pos h.device] at hNext
    cases hNext
    exact ⟨⟨h.exec fun _ => Op.noConfusion, .look⟩, Nat.lt_succ_self 1⟩
  | look =>
    rw [Detection.next] at hNext
    split at hNext
    · rw [if_pos (unrequested_eq_nil h)] at hNext
      cases hNext
      exact ⟨⟨h, .left⟩, Nat.zero_lt_one⟩
    · cases hNext
  | left => cases hIn

/-- While a consumer is removed with all releases under way, the loop finds
nothing to do. -/
theorem Removal.settling (hAreas : AreasOk s) (hDevice : (s.vm v).consumerSize.isSome = true)
    (hSettled : TornDown s v) {n : Nat} {q : Shared × Detection}
    (h : Removal tid v vms s n q) : Settling s v q.1 ∧ Leaving v vms q.2 := by
  have hInit : Settling s v s :=
    ⟨hAreas, hDevice, fun x hx => (hSettled x hx).1,
      fun x hx => ⟨(hAreas.lt_of_mem hx).1, (hSettled x hx).2⟩⟩
  induction h with
  | refl => exact ⟨hInit, .enter⟩
  | own _ hStep ih => exact (ih.1.step ih.2 hStep).1
  | env _ hOther ih => exact ⟨ih.1.exec hOther.2, ih.2⟩

/-- With every entry settled the loop ends at its first look. -/
theorem TornDown.ends (hAreas : AreasOk s) (hDevice : (s.vm v).consumerSize.isSome = true)
    (hSettled : TornDown s v) : TeardownEnds tid v vms s where
  finite := by
    refine ⟨2, fun n q h => Nat.le_trans (Nat.le_add_right n q.2.lookings) ?_⟩
    exact h.bounded (I := fun u l => Settling s v u ∧ Leaving v vms l)
      (m := fun _ l => l.lookings) (fun hRun => Removal.settling hAreas hDevice hSettled hRun)
      (fun hInv hStep => (hInv.1.step hInv.2 hStep).2) (fun _ _ => Nat.le_refl _)
  moves n u l h hFree _ hNe := by
    obtain ⟨hInv, hl⟩ := Removal.settling hAreas hDevice hSettled h
    cases hl with
    | enter => exact ⟨_, _, .enter, .go, rfl⟩
    | look =>
      refine ⟨.nop, .donorEnter v vms, .look, .go, ?_⟩
      rw [Detection.next, if_pos (hFree v), if_pos (unrequested_eq_nil hInv)]
    | left => exact absurd rfl hNe
  abandoned n u h x hx :=
    ((Removal.settling hAreas hDevice hSettled h).1.abandoned x hx).2
  handedBack n u h x hx hState := by
    rw [(hSettled x hx).2] at hState
    cases hState

end TornDown

-- ---------------------------------------------------------------------------
-- When one entry is not
-- ---------------------------------------------------------------------------

/-- A return of allocations of `v` alone that releases nothing, since `v` has
exited. -/
def ReturnCall.Aloof (u : Shared) (v : VmId) (r : ReturnCall) : Prop :=
  match r.pc with
  | .organize todo consumers _ =>
    consumers = [] ∧ ∀ y ∈ todo, y < u.nextId ∧ (u.alloc y).consumerVm = v
  | .take _ todo consumers _ =>
    consumers = [] ∧ ∀ y ∈ todo, y < u.nextId ∧ (u.alloc y).consumerVm = v
  | .check _ _ todo consumers _ =>
    consumers = [] ∧ ∀ y ∈ todo, y < u.nextId ∧ (u.alloc y).consumerVm = v
  | .release calls _ => calls = []
  | .giveBack calls => ∀ g ∈ calls, g.pc = .send ∨ g.pc = .done
  | .done => True

/-- The allocation `x` of `v` waits for a release that nobody requests. -/
structure Waits (v : VmId) (x : AllocId) (u : Shared) : Prop where
  areas : AreasOk u
  exited : u.exited v = true
  unlocked : u.consumerLock v = none
  entry : x ∈ (u.allocatedAreas v).values
  unrequested : (u.alloc x).releaseRequested = false

/-- The loop that waits with it. -/
inductive Spinning (v : VmId) (vms : List VmId) (x : AllocId) (u : Shared) : Detection → Prop
  | look : Waits v x u → Spinning v vms x u (.consumerLoop v vms)
  | give {call : ReturnCall} :
      Waits v x u → call.Aloof u v → Spinning v vms x u (.consumerReturn call v vms)

section Spinning

variable {s u : Shared} {tid : Tid} {v : VmId} {vms : List VmId} {x : AllocId}

/-- The operations of a round that releases nothing. -/
inductive Quiet : Op → Prop
  | nop : Quiet .nop
  | abandon {y : AllocId} : Quiet (.abandon y)
  | returned {d : DonorAllocation} {size : Nat} {covers : List AllocId} {ok : Bool} :
      Quiet (.ephMemReturnCapacity d size covers ok)

/-- An allocation nobody asks for goes on waiting. -/
theorem Waits.exec (h : Waits v x u) {op : Op} (hQuiet : Quiet op) : Waits v x (op.exec u) := by
  have hAreas := areasOk_exec h.areas op
  cases hQuiet with
  | nop => exact h
  | abandon =>
    rename_i y
    refine ⟨hAreas, h.exited, h.unlocked, h.entry, ?_⟩
    have hKept : (((Op.abandon y).exec u).alloc x).releaseRequested =
        (u.alloc x).releaseRequested := by
      simp only [Op.exec, Shared.emit, Shared.setAlloc, abandonOrTakeDonor_snd]
      rw [Function.update_apply]
      split
      · rename_i hEq
        rw [hEq]
      · rfl
    rw [hKept]
    exact h.unrequested
  | returned => exact ⟨hAreas, h.exited, h.unlocked, h.entry, h.unrequested⟩

/-- Allocations stay their consumer's. -/
theorem consumers_exec {l : List AllocId} (op : Op)
    (h : ∀ y ∈ l, y < u.nextId ∧ (u.alloc y).consumerVm = v) :
    ∀ y ∈ l, y < (op.exec u).nextId ∧ ((op.exec u).alloc y).consumerVm = v := by
  intro y hy
  obtain ⟨hLt, hc⟩ := h y hy
  exact ⟨Nat.lt_of_lt_of_le hLt (evolves_exec op u).nextId,
    (((evolves_exec op u).alloc y hLt).consumer).trans hc⟩

/-- A call that is not done makes a step that releases nothing. -/
theorem ReturnCall.Aloof.step (tid : Tid) {r : ReturnCall} (h : r.Aloof u v)
    (hExited : u.exited v = true) (hNot : r.isDone = false) :
    ∃ ch op r', r.next tid u ch = some (op, r') ∧ Quiet op ∧ r'.Aloof (op.exec u) v := by
  obtain ⟨allocs, pc⟩ := r
  cases pc with
  | organize todo consumers donors =>
    obtain ⟨rfl, hTodo⟩ := h
    cases todo with
    | nil => exact ⟨.go, _, _, rfl, .nop, rfl⟩
    | cons y todo =>
      refine ⟨.go, _, _, rfl, .nop, ?_, fun z hz => hTodo z (List.mem_cons_of_mem _ hz)⟩
      rw [(hTodo y (List.mem_cons_self ..)).2, if_pos hExited]
  | take y todo consumers donors =>
    obtain ⟨rfl, hTodo⟩ := h
    cases hDonor : (u.alloc y).abandonOrTakeDonor.1 with
    | none =>
      refine ⟨.go, .abandon y, ⟨allocs, .organize todo [] donors⟩, ?_, .abandon, rfl,
        consumers_exec _ hTodo⟩
      rw [ReturnCall.next]
      simp only [hDonor]
    | some d =>
      refine ⟨.go, .abandon y, ⟨allocs, .check y d todo [] donors⟩, ?_, .abandon, rfl,
        consumers_exec _ hTodo⟩
      rw [ReturnCall.next]
      simp only [hDonor]
  | check y d todo consumers donors =>
    obtain ⟨rfl, hTodo⟩ := h
    exact ⟨.go, _, _, rfl, .nop, rfl, hTodo⟩
  | release calls donors =>
    have hNil : calls = [] := h
    subst hNil
    refine ⟨.go, _, _, rfl, .nop, fun g hg => ?_⟩
    obtain ⟨d, -, rfl⟩ := List.mem_map.mp hg
    exact Or.inl rfl
  | giveBack calls =>
    have hCalls : ∀ g ∈ calls, g.pc = .send ∨ g.pc = .done := h
    by_cases hAll : calls.all GiveBack.isDone = true
    · refine ⟨.go, .nop, ⟨allocs, .done⟩, ?_, .nop, trivial⟩
      rw [ReturnCall.next]
      simp only [hAll, if_true]
    · obtain ⟨g, hg, hOpen⟩ : ∃ g ∈ calls, ¬g.isDone = true := by
        simpa [List.all_eq_true] using hAll
      obtain ⟨i, hi⟩ := List.mem_iff_getElem?.mp hg
      obtain ⟨d, ids, pc⟩ := g
      have hSend : pc = .send := by
        rcases hCalls _ hg with hSend | hDone
        · exact hSend
        · exact absurd (by rw [GiveBack.isDone, hDone]; rfl) hOpen
      subst hSend
      refine ⟨.sub i (.outcome false),
        .ephMemReturnCapacity d (ids.length * granularity) ids false,
        ⟨allocs, .giveBack (calls.set i ⟨d, ids, .done⟩)⟩, ?_, .returned, fun g' hg' => ?_⟩
      · rw [ReturnCall.next]
        simp only [stepNth, hi, GiveBack.next, Bool.false_eq_true, if_false]
      · rcases List.mem_or_eq_of_mem_set hg' with hOld | rfl
        · exact hCalls g' hOld
        · exact Or.inr rfl
  | done => cases hNot

/-- The loop makes a step and is no nearer to its end. -/
theorem Spinning.step (tid : Tid) {l : Detection} (h : Spinning v vms x u l) :
    ∃ op l', l.LoopStep tid v vms u op l' ∧ Spinning v vms x (op.exec u) l' := by
  cases h with
  | look hWaits =>
    have hNot : Detection.unrequested u v ≠ [] := by
      have hMem : x ∈ Detection.unrequested u v := by
        rw [Detection.unrequested, List.mem_filter, EphAllocation.isReleaseRequested,
          hWaits.unrequested]
        exact ⟨hWaits.entry, rfl⟩
      exact List.ne_nil_of_mem hMem
    refine ⟨.nop, .consumerReturn (.start (Detection.unrequested u v)) v vms, ⟨.look, .go, ?_⟩,
      .give hWaits ⟨rfl, fun y hy => ?_⟩⟩
    · rw [Detection.next, if_pos hWaits.unlocked, if_neg hNot]
    · exact hWaits.areas.lt_of_mem (List.mem_filter.mp hy).1
  | @give call hWaits hAloof =>
    by_cases hDone : call.isDone = true
    · refine ⟨.nop, .consumerLoop v vms, ⟨.give, .go, ?_⟩, .look hWaits⟩
      rw [Detection.next, if_pos hDone]
    · obtain ⟨ch, op, call', hNext, hQuiet, hAloof'⟩ :=
        hAloof.step tid hWaits.exited (Bool.eq_false_iff.mpr hDone)
      refine ⟨op, .consumerReturn call' v vms, ⟨.give, ch, ?_⟩,
        .give (hWaits.exec hQuiet) hAloof'⟩
      rw [Detection.next, if_neg hDone]
      simp only [hNext]

/-- Another thread lets go of the consumer's mutex. -/
theorem meanwhile_unlock (v : VmId) (u : Shared) (l : Detection) :
    Meanwhile v u l (.unlockConsumer v) :=
  ⟨Or.inl ⟨0, .request ⟨v, .drop ⟨v, [], [], .claim [] []⟩ []⟩, .go, _, _, rfl⟩,
    fun _ => Op.noConfusion⟩

/-- The removal of `v` has begun in `s` and nothing else was done since. -/
structure Begun (s : Shared) (v : VmId) (u : Shared) : Prop where
  areas : AreasOk u
  exited : u.exited v = true
  unlocked : u.consumerLock v = none
  entries : u.allocatedAreas v = s.allocatedAreas v
  alloc : u.alloc = s.alloc

/-- The removal of a consumer begins. Only when its mutex is held does another
thread move, the one that lets go of it. -/
theorem Removal.begins (tid : Tid) (vms : List VmId) (hAreas : AreasOk s)
    (hDevice : (s.vm v).consumerSize.isSome = true) :
    ∃ u, Removal tid v vms s 1 (u, .consumerLoop v vms) ∧ Begun s v u := by
  have hEnter : ∀ u : Shared, (u.vm v).consumerSize.isSome = true →
      Detection.LoopStep tid v vms u (.removing (v :: vms)) (.setExited v)
        (.consumerLoop v vms) := by
    intro u hDevice
    refine ⟨.enter, .go, ?_⟩
    rw [Detection.next, if_pos hDevice]
  by_cases hFree : s.consumerLock v = none
  · exact ⟨_, .own .refl (hEnter s hDevice), areasOk_exec hAreas _, Function.update_self .., hFree,
      rfl, rfl⟩
  · exact ⟨_, .own (.env .refl (meanwhile_unlock v s _)) (hEnter _ hDevice),
      areasOk_exec (areasOk_exec hAreas _) _, Function.update_self .., Function.update_self ..,
      rfl, rfl⟩

/-- From an entry nobody has requested on, the loop makes any number of
steps. -/
theorem Spinning.steps (tid : Tid) (vms : List VmId) (hAreas : AreasOk s)
    (hDevice : (s.vm v).consumerSize.isSome = true) (hx : x ∈ (s.allocatedAreas v).values)
    (hNot : (s.alloc x).releaseRequested = false) (n : Nat) :
    ∃ u l, Removal tid v vms s (n + 1) (u, l) ∧ Spinning v vms x u l := by
  induction n with
  | zero =>
    obtain ⟨u, hRun, hBegun⟩ := Removal.begins tid vms hAreas hDevice
    refine ⟨u, _, hRun, .look ⟨hBegun.areas, hBegun.exited, hBegun.unlocked, ?_, ?_⟩⟩
    · rw [hBegun.entries]
      exact hx
    · rw [hBegun.alloc]
      exact hNot
  | succ n ih =>
    obtain ⟨u, l, hRun, hSpin⟩ := ih
    obtain ⟨op, l', hStep, hSpin'⟩ := hSpin.step tid
    exact ⟨_, _, .own hRun hStep, hSpin'⟩

/-- One allocation whose release nobody asks for keeps the loop turning. -/
theorem not_ends_of_unrequested (hAreas : AreasOk s)
    (hDevice : (s.vm v).consumerSize.isSome = true) (hx : x ∈ (s.allocatedAreas v).values)
    (hNot : (s.alloc x).releaseRequested = false) :
    ¬TeardownEnds tid v vms s := by
  intro hEnds
  obtain ⟨bound, hBound⟩ := hEnds.finite
  obtain ⟨u, l, hRun, -⟩ := Spinning.steps tid vms hAreas hDevice hx hNot bound
  exact absurd (hBound _ _ hRun) (Nat.not_le_of_lt (Nat.lt_succ_self bound))

/-- Entries that are all requested end the loop at once, abandoned or not. -/
theorem abandoned_of_ends (hAreas : AreasOk s) (hDevice : (s.vm v).consumerSize.isSome = true)
    (hRequested : ∀ y ∈ (s.allocatedAreas v).values, (s.alloc y).releaseRequested = true)
    (hEnds : TeardownEnds tid v vms s) (hx : x ∈ (s.allocatedAreas v).values) :
    (s.alloc x).state = .abandoned := by
  obtain ⟨u, hRun, hBegun⟩ := Removal.begins tid vms hAreas hDevice
  have hNone : Detection.unrequested u v = [] := by
    rw [Detection.unrequested, List.filter_eq_nil_iff, hBegun.entries, hBegun.alloc]
    intro y hy hNot
    rw [EphAllocation.isReleaseRequested, hRequested y hy] at hNot
    cases hNot
  have hLook : Detection.LoopStep tid v vms u (.consumerLoop v vms) .nop (.donorEnter v vms) := by
    refine ⟨.look, .go, ?_⟩
    rw [Detection.next, if_pos hBegun.unlocked, if_pos hNone]
  have hLeft := hEnds.abandoned 2 _ (Runs.own hRun hLook) x hx
  rw [show (Op.exec .nop u).alloc = s.alloc from hBegun.alloc] at hLeft
  exact hLeft

end Spinning

-- ---------------------------------------------------------------------------
-- The condition
-- ---------------------------------------------------------------------------

/-- The request of VM 1 is answered and done. -/
def demoHolding : List (Label Op Choice) := demoTold ++ [.task 2 .go, .task 2 .go]

/-- VM 0 asks for its memory back: the allocation is claimed and abandoned, its
release requested and sent to QEMU. Before the guest lets go of it, VM 1
leaves. -/
def demoLeavesReleasing : List (Label Op Choice) :=
  demoHolding ++ [.outside (.emitRevoke 0 7 granularity), .task 0 .go] ++
    List.replicate 7 (.task 3 .go) ++
    [.task 3 (.sub 0 .go), .task 3 (.sub 0 .go), .task 3 (.sub 0 .go),
      .task 3 (.sub 0 (.outcome true)), .task 1 (.remove [1])]

theorem demoLeavesReleasing_runs : (orchestrator.run demo demoLeavesReleasing).isSome = true := by
  decide +kernel

/-- VM 1 leaves with its allocation still live. -/
def demoLeavesHolding : List (Label Op Choice) := demoHolding ++ [.task 1 (.remove [1])]

theorem demoLeavesHolding_runs : (orchestrator.run demo demoLeavesHolding).isSome = true := by
  decide +kernel

end EphMemory.Orchestrator
