import EphMemory.Lib.Alone
import EphMemory.Orchestrator.Granting
import EphMemory.Orchestrator.Returns

/-!
# Orchestrator — what `release_reserved_memory` leaves behind

Release calls of different consumers, in any order of their steps, while QEMU
confirms what they ask for. Whether the command succeeds, fails or times out,
in the end the allocations that were found and not yet asked for are asked for,
and their areas are free; nothing else has changed.

* `Aside`, `Shared.returnsTo` — what a release or a return does not touch, and
  what a donor is sent;
* `Shared.fires` — the allocations the calls release;
* `ReleaseFrame` — what they leave alone, from any state;
* `ReleaseInv` — how far they are, along every run;
* `ReleasedAll`, `ReleaseInv.released` — where they leave the state.
-/

namespace EphMemory.Orchestrator

open EphMemory.Lib

-- ---------------------------------------------------------------------------
-- What is not touched
-- ---------------------------------------------------------------------------

/-- Outside the allocations, the areas, the donors' books, the consumers'
mutexes, the devices with their events and the log, `t` is `s`. -/
def Aside (s t : Shared) : Prop :=
  t = { s with
    alloc := t.alloc
    allocatedAreas := t.allocatedAreas
    donor := t.donor
    consumerLock := t.consumerLock
    device := t.device
    events := t.events
    log := t.log }

theorem Aside.refl (s : Shared) : Aside s s := rfl

theorem Aside.trans {s t u : Shared} (h₁ : Aside s t) (h₂ : Aside t u) : Aside s u := by
  unfold Aside at *
  rw [h₁] at h₂
  exact h₂

theorem Aside.exited {s t : Shared} (h : Aside s t) : t.exited = s.exited := by rw [h]

theorem Aside.vm {s t : Shared} (h : Aside s t) : t.vm = s.vm := by rw [h]

theorem Aside.nextId {s t : Shared} (h : Aside s t) : t.nextId = s.nextId := by rw [h]

theorem Aside.donorLock {s t : Shared} (h : Aside s t) : t.donorLock = s.donorLock := by rw [h]

/-- An operation of a return touches nothing beside these. -/
theorem aside_exec {op : Op} (h : op.ofReturn = true) (s : Shared) : Aside s (op.exec s) := by
  cases op with
  | claimRelease c x call taken =>
    simp only [Op.exec]
    split <;> rfl
  | bookkeep d x =>
    simp only [Op.exec]
    split
    · rfl
    · split <;> rfl
  | _ => first | rfl | cases h

/-- What a return command to the region `d` says, and whether it succeeded. -/
def Output.returnTo? (d : DonorAllocation) : Output → Option (Nat × Bool)
  | .ephMemReturnCapacity d' size _ ok => if d' = d then some (size, ok) else none
  | _ => none

/-- The return commands sent to a region, the last one first. -/
def Shared.returnsTo (s : Shared) (d : DonorAllocation) : List (Nat × Bool) :=
  s.log.filterMap (Output.returnTo? d)

/-- Only a return command to `d` counts as one. -/
theorem returnsTo_exec {op : Op} {s : Shared} {d : DonorAllocation}
    (hOp : ∀ size ids ok, op ≠ .ephMemReturnCapacity d size ids ok) :
    (op.exec s).returnsTo d = s.returnsTo d := by
  refine filterMap_log fun o ho => ?_
  cases ho with
  | @returned d' size ids ok =>
    have hne : d' ≠ d := by
      rintro rfl
      exact hOp size ids ok rfl
    exact if_neg hne
  | _ => rfl

-- ---------------------------------------------------------------------------
-- The calls
-- ---------------------------------------------------------------------------

/-- The area is there under the allocation's offset, and nobody has asked for
its release. -/
def Shared.Claimable (s : Shared) (c : VmId) (x : AllocId) : Prop :=
  (s.allocatedAreas c).get? (s.offsetOf x) = some x ∧ (s.alloc x).releaseRequested = false

instance (s : Shared) (c : VmId) (x : AllocId) : Decidable (s.Claimable c x) := by
  unfold Shared.Claimable
  infer_instance

/-- Which allocations release calls of the given consumers release. -/
def Shared.fires (s : Shared) (given : List (VmId × List AllocId)) (x : AllocId) : Bool :=
  given.any fun g => decide (x ∈ g.2) && decide (s.Claimable g.1 x)

/-- What is released was given and claimable. -/
theorem fires_iff {s : Shared} {given : List (VmId × List AllocId)} {x : AllocId} :
    s.fires given x = true ↔ ∃ g ∈ given, x ∈ g.2 ∧ s.Claimable g.1 x := by
  simp [Shared.fires]

/-- Each consumer is called once, for distinct allocations of its own, and no
other allocation lies at the offset of one of them. -/
structure Separate (s : Shared) (given : List (VmId × List AllocId)) : Prop where
  areas : AreasOk s
  consumers : (given.map Prod.fst).Nodup
  distinct : ∀ g ∈ given, g.2.Nodup
  own : ∀ g ∈ given, ∀ x ∈ g.2, (s.alloc x).consumerVm = g.1
  alone : ∀ g ∈ given, ∀ x ∈ g.2, ∀ y,
    (s.allocatedAreas g.1).get? (s.offsetOf x) = some y → y = x

/-- The allocations still to look at. -/
def ReleaseCall.todo (r : ReleaseCall) : List AllocId :=
  match r.pc with
  | .enter => r.allocs
  | .claim todo _ => todo
  | _ => []

/-- The allocations the consumer's device is asked to release. -/
def ReleaseCall.asked (r : ReleaseCall) : List AllocId :=
  match r.pc with
  | .claim _ toRelease => toRelease
  | .send toRelease => toRelease
  | .wait toRelease => toRelease
  | .manual toRelease => toRelease
  | _ => []

def ReleaseCall.locks (r : ReleaseCall) : Bool :=
  match r.pc with
  | .claim _ _ => true
  | _ => false

/-- How far a call that began in `s` is in `t`. -/
structure ReleaseCall.Reached (s t : Shared) (r : ReleaseCall) : Prop where
  past : ∃ pre, r.allocs = pre ++ r.todo ∧ ∀ x ∈ pre, s.Claimable r.consumer x →
    (t.alloc x).releaseRequested = true ∧
      (x ∈ r.asked ∨ (t.allocatedAreas r.consumer).get? (s.offsetOf x) = none)
  fresh : ∀ x ∈ r.todo, (t.alloc x).releaseRequested = (s.alloc x).releaseRequested
  asked : ∀ x ∈ r.asked, x ∈ r.allocs ∧ s.Claimable r.consumer x ∧
    (t.alloc x).releaseRequested = true

/-- QEMU confirms a release and the event handler hears of it: what the event
takes out of the areas is what a waiting call has asked for. -/
inductive Confirms (t : Shared) (calls : List ReleaseCall) : Op → Prop
  | emitted {c : VmId} {extents : List Extent} {about : List AllocId} :
      Confirms t calls (.emitRelease c extents about)
  | received : Confirms t calls .nextEvent
  | handled {c : VmId} {extents : List Extent} {about : List AllocId} :
      (∀ o y, (t.allocatedAreas c).get? o = some y →
        (((Op.signalReleaseDc c extents about).exec t).allocatedAreas c).get? o = none →
        ∃ r ∈ calls, r.consumer = c ∧ ∃ toRelease, r.pc = .wait toRelease ∧ y ∈ toRelease) →
      Confirms t calls (.signalReleaseDc c extents about)

-- ---------------------------------------------------------------------------
-- What a release does not touch
-- ---------------------------------------------------------------------------

/-- Release calls that began in `s`: the donors do not notice them. -/
structure ReleaseFrame (given : List (VmId × List AllocId)) (s t : Shared)
    (calls : List ReleaseCall) : Prop where
  called : calls.map (fun r => (r.consumer, r.allocs)) = given
  aside : Aside s t
  donor : t.donor = s.donor
  alloc : ∀ x, t.alloc x = { s.alloc x with releaseRequested := (t.alloc x).releaseRequested }
  locked : ∀ c, t.consumerLock c = none ∨ ∃ r ∈ calls, r.consumer = c ∧ r.locks = true
  returns : ∀ d, t.returnsTo d = s.returnsTo d

section Frame

variable {given : List (VmId × List AllocId)} {s t : Shared} {calls calls' : List ReleaseCall}
  {r r' : ReleaseCall}

theorem map_set_same {α β : Type} {f : α → β} {l : List α} {i : Nat} {a a' : α}
    (hi : l[i]? = some a) (h : f a' = f a) : (l.set i a').map f = l.map f := by
  have hMap : (l.map f)[i]? = some (f a) := by simp [hi]
  obtain ⟨hLt, hEq⟩ := List.getElem?_eq_some_iff.mp hMap
  rw [List.map_set, h, ← hEq, List.set_getElem_self]

/-- Each call is for what was given it. -/
theorem ReleaseFrame.mem_given (h : ReleaseFrame given s t calls) (hr : r ∈ calls) :
    (r.consumer, r.allocs) ∈ given := by
  rw [← h.called]
  exact List.mem_map_of_mem hr

/-- No allocation is moved. -/
theorem ReleaseFrame.offsetOf (h : ReleaseFrame given s t calls) : t.offsetOf = s.offsetOf := by
  funext x
  rw [Shared.offsetOf, h.alloc x, Shared.offsetOf]

/-- The calls are for different consumers. -/
theorem ReleaseFrame.consumer_ne (h : ReleaseFrame given s t calls)
    (hKeys : (given.map Prod.fst).Nodup) {i j : Nat} {u : ReleaseCall} (hi : calls[i]? = some r)
    (hj : calls[j]? = some u) (hne : j ≠ i) : u.consumer ≠ r.consumer := by
  intro heq
  have hNodup : (calls.map ReleaseCall.consumer).Nodup := by
    have hMap : given.map Prod.fst = calls.map ReleaseCall.consumer := by
      rw [← h.called, List.map_map]
      rfl
    rw [← hMap]
    exact hKeys
  have hi' : (calls.map ReleaseCall.consumer)[i]? = some r.consumer := by simp [hi]
  have hj' : (calls.map ReleaseCall.consumer)[j]? = some r.consumer := by simp [hj, heq]
  obtain ⟨hLt, hEq⟩ := List.getElem?_eq_some_iff.mp hi'
  obtain ⟨hLt', hEq'⟩ := List.getElem?_eq_some_iff.mp hj'
  exact hne ((List.Nodup.getElem_inj_iff hNodup).mp (hEq'.trans hEq.symm))

/-- Whoever holds the mutex of a consumer is inside the claim loop for it. -/
theorem ReleaseFrame.unlocked (h : ReleaseFrame given s t calls)
    (hKeys : (given.map Prod.fst).Nodup) {i : Nat} (hi : calls[i]? = some r)
    (hNot : r.locks = false) : t.consumerLock r.consumer = none := by
  rcases h.locked r.consumer with hNone | ⟨u, hu, hConsumer, hLocks⟩
  · exact hNone
  · obtain ⟨j, hj⟩ := List.getElem?_of_mem hu
    by_cases hij : j = i
    · subst hij
      cases hi.symm.trans hj
      rw [hNot] at hLocks
      cases hLocks
    · exact absurd hConsumer (h.consumer_ne hKeys hi hj hij)

/-- An operation of a release, or of its confirmation. -/
theorem ReleaseFrame.exec (h : ReleaseFrame given s t calls) {op : Op}
    (hOp : op.ofRelease = true ∨ Confirms t calls op)
    (hCalled : calls'.map (fun r => (r.consumer, r.allocs)) =
      calls.map (fun r => (r.consumer, r.allocs)))
    (hLocked : ∀ c, (op.exec t).consumerLock c = none ∨
      ∃ r ∈ calls', r.consumer = c ∧ r.locks = true) :
    ReleaseFrame given s (op.exec t) calls' where
  called := hCalled.trans h.called
  aside := by
    refine h.aside.trans ?_
    rcases hOp with hOp | hConfirms
    · refine aside_exec ?_ t
      cases op <;> first | exact hOp | rfl
    · cases hConfirms <;> rfl
  donor := by
    refine Eq.trans ?_ h.donor
    rcases hOp with hOp | hConfirms
    · cases op with
      | claimRelease c x call taken =>
        simp only [Op.exec]
        split <;> rfl
      | _ => first | rfl | cases hOp
    · cases hConfirms <;> rfl
  alloc x := by
    have hChange := allocChange_exec op t x
    have hBefore := h.alloc x
    generalize (op.exec t).alloc x = a at hChange ⊢
    rcases hOp with hOp | hConfirms
    · cases hChange with
      | same => exact hBefore
      | requested _ => rw [hBefore]
      | _ => cases hOp
    · cases hConfirms <;> (cases hChange; exact hBefore)
  locked := hLocked
  returns d := by
    refine (returnsTo_exec fun size ids ok => ?_).trans (h.returns d)
    rintro rfl
    rcases hOp with hOp | hConfirms
    · cases hOp
    · cases hConfirms

/-- A mutex that is taken is taken by one of the calls. -/
theorem ReleaseFrame.locked_set (h : ReleaseFrame given s t calls) {i : Nat}
    (hi : calls[i]? = some r) (hConsumer : r'.consumer = r.consumer) (lock : VmId → Option Tid)
    (hOther : ∀ c, c ≠ r.consumer → lock c = t.consumerLock c)
    (hOwn : lock r.consumer = none ∨ r'.locks = true) :
    ∀ c, lock c = none ∨ ∃ u ∈ calls.set i r', u.consumer = c ∧ u.locks = true := by
  intro c
  by_cases hc : c = r.consumer
  · subst hc
    refine hOwn.imp id fun hLocks => ⟨r', ?_, hConsumer, hLocks⟩
    exact List.mem_set (List.getElem?_eq_some_iff.mp hi).1 _
  · rw [hOther c hc]
    refine (h.locked c).imp id fun ⟨u, hu, hu', hLocks⟩ => ⟨u, ?_, hu', hLocks⟩
    obtain ⟨j, hj⟩ := List.getElem?_of_mem hu
    refine List.mem_of_getElem? (i := j) ?_
    rw [List.getElem?_set_ne, hj]
    rintro rfl
    cases hi.symm.trans hj
    exact hc hu'.symm

/-- A step of one call keeps the frame. -/
theorem ReleaseFrame.step {tid : Tid} {i : Nat} {op : Op} (h : ReleaseFrame given s t calls)
    (hKeys : (given.map Prod.fst).Nodup) (hi : calls[i]? = some r)
    (hs : ReleaseCall.Step tid t r op r') :
    ReleaseFrame given s (op.exec t) (calls.set i r') := by
  have hSame : r'.consumer = r.consumer ∧ r'.allocs = r.allocs := by
    cases hs <;> exact ⟨rfl, rfl⟩
  refine h.exec (Or.inl hs.ofRelease) (map_set_same hi (by rw [hSame.1, hSame.2])) ?_
  have hSet := h.locked_set hi hSame.1
  -- a step outside the claim loop leaves the mutexes alone
  have hKeep := fun (hNot : r.locks = false) =>
    hSet t.consumerLock (fun _ _ => rfl) (Or.inl (h.unlocked hKeys hi hNot))
  cases hs with
  | enter _ => exact hSet _ (fun c' hc' => Function.update_of_ne hc' _ _) (Or.inr rfl)
  | @claim c allocs taken todo toRelease x =>
    have hLock : ((Op.claimRelease c x allocs (decide (x ∈ taken))).exec t).consumerLock =
        t.consumerLock := by
      simp only [Op.exec]
      split <;> rfl
    rw [hLock]
    exact hSet _ (fun _ _ => rfl) (Or.inr rfl)
  | nothing =>
    exact hSet _ (fun c' hc' => Function.update_of_ne hc' _ _) (Or.inl (Function.update_self ..))
  | claimed =>
    exact hSet _ (fun c' hc' => Function.update_of_ne hc' _ _) (Or.inl (Function.update_self ..))
  | _ => exact hKeep rfl

/-- A confirmation of the handler keeps the frame. -/
theorem ReleaseFrame.confirm {op : Op} (h : ReleaseFrame given s t calls)
    (hOp : Confirms t calls op) : ReleaseFrame given s (op.exec t) calls := by
  refine h.exec (Or.inr hOp) rfl ?_
  cases hOp <;> exact h.locked

/-- Calls that are done hold no mutex. -/
theorem ReleaseFrame.end_unlocked (h : ReleaseFrame given s t calls)
    (hDone : ∀ r ∈ calls, r.pc = .done) (c : VmId) : t.consumerLock c = none := by
  rcases h.locked c with hNone | ⟨r, hr, -, hLocks⟩
  · exact hNone
  · rw [ReleaseCall.locks, hDone r hr] at hLocks
    cases hLocks

/-- The frame holds before the first step. -/
theorem ReleaseFrame.init (hFree : ∀ c, s.consumerLock c = none)
    (hCalled : calls.map (fun r => (r.consumer, r.allocs)) = given) :
    ReleaseFrame given s s calls where
  called := hCalled
  aside := .refl s
  donor := rfl
  alloc _ := rfl
  locked c := Or.inl (hFree c)
  returns _ := rfl

end Frame

-- ---------------------------------------------------------------------------
-- The allocations and the areas
-- ---------------------------------------------------------------------------

/-- Release calls that began in `s`: what they have asked for and freed. -/
structure ReleaseInv (given : List (VmId × List AllocId)) (s t : Shared)
    (calls : List ReleaseCall) : Prop extends ReleaseFrame given s t calls where
  before : ∀ x, (s.alloc x).releaseRequested = true → (t.alloc x).releaseRequested = true
  requested : ∀ x, (t.alloc x).releaseRequested = true →
    (s.alloc x).releaseRequested = true ∨ s.fires given x = true
  kept : ∀ c o y, (t.allocatedAreas c).get? o = some y → (s.allocatedAreas c).get? o = some y
  lost : ∀ c o y, (s.allocatedAreas c).get? o = some y → (t.allocatedAreas c).get? o = none →
    s.fires given y = true ∧ (t.alloc y).releaseRequested = true
  reached : ∀ r ∈ calls, r.Reached s t

section Step

variable {given : List (VmId × List AllocId)} {s t t' : Shared} {calls : List ReleaseCall}
  {r r' : ReleaseCall}

/-- A call does not notice what happens to other consumers. -/
theorem ReleaseCall.Reached.congr (h : r.Reached s t)
    (hReq : ∀ x ∈ r.allocs, (t'.alloc x).releaseRequested = (t.alloc x).releaseRequested)
    (hAreas : t'.allocatedAreas r.consumer = t.allocatedAreas r.consumer) : r.Reached s t' := by
  obtain ⟨pre, hSplit, hPast⟩ := h.past
  have hPre : ∀ x ∈ pre, x ∈ r.allocs := fun x hx => hSplit ▸ List.mem_append_left _ hx
  have hTodo : ∀ x ∈ r.todo, x ∈ r.allocs := fun x hx => hSplit ▸ List.mem_append_right _ hx
  refine ⟨⟨pre, hSplit, fun x hx hc => ?_⟩, fun x hx => ?_, fun x hx => ?_⟩
  · rw [hReq x (hPre x hx), hAreas]
    exact hPast x hx hc
  · rw [hReq x (hTodo x hx)]
    exact h.fresh x hx
  · obtain ⟨hMem, hc, hAsked⟩ := h.asked x hx
    exact ⟨hMem, hc, by rw [hReq x hMem, hAsked]⟩

/-- A step of the call `i` that changes neither allocations nor areas. -/
theorem ReleaseInv.goto (h : ReleaseInv given s t calls) {i : Nat}
    (hFrame : ReleaseFrame given s t' (calls.set i r')) (hAlloc : t'.alloc = t.alloc)
    (hAreas : t'.allocatedAreas = t.allocatedAreas) (hReached : r'.Reached s t) :
    ReleaseInv given s t' (calls.set i r') where
  toReleaseFrame := hFrame
  before x hx := by
    rw [hAlloc]
    exact h.before x hx
  requested x hx := by
    rw [hAlloc] at hx
    exact h.requested x hx
  kept c o y hy := by
    rw [hAreas] at hy
    exact h.kept c o y hy
  lost c o y hy hGone := by
    rw [hAreas] at hGone
    rw [hAlloc]
    exact h.lost c o y hy hGone
  reached := by
    refine forall_set (fun u hu => ?_) ?_
    · exact (h.reached u hu).congr (fun x _ => by rw [hAlloc]) (by rw [hAreas])
    · exact hReached.congr (fun x _ => by rw [hAlloc]) (by rw [hAreas])

/-- What the claim loop finds at an offset: the allocation itself, not asked
for yet, or nothing to do. -/
theorem ReleaseInv.claimAt (h : ReleaseInv given s t calls) (hSep : Separate s given)
    (hr : r ∈ calls) {x : AllocId} (hx : x ∈ r.todo) :
    (s.Claimable r.consumer x ∧
      (t.claimAt r.consumer x = .release x ∨ t.claimAt r.consumer x = .drop x)) ∨
    (¬ s.Claimable r.consumer x ∧
      (t.claimAt r.consumer x = .absent ∨ ∃ y, t.claimAt r.consumer x = .alreadyRequested y)) := by
  obtain ⟨pre, hSplit, -⟩ := (h.reached r hr).past
  have hMem : x ∈ r.allocs := hSplit ▸ List.mem_append_right _ hx
  have hFresh := (h.reached r hr).fresh x hx
  have hAlone := hSep.alone _ (h.mem_given hr) x hMem
  by_cases hc : s.Claimable r.consumer x
  · refine Or.inl ⟨hc, ?_⟩
    obtain ⟨hAt, hNot⟩ := hc
    have hThere : (t.allocatedAreas r.consumer).get? (s.offsetOf x) = some x := by
      cases hGet : (t.allocatedAreas r.consumer).get? (s.offsetOf x) with
      | some y => rw [hAlone y (h.kept _ _ _ hGet)]
      | none =>
        have hReq := (h.lost _ _ _ hAt hGet).2
        rw [hFresh, hNot] at hReq
        cases hReq
    unfold Shared.claimAt
    simp only [h.offsetOf, hThere, hFresh, hNot, Bool.false_eq_true, if_false]
    split
    · exact Or.inl rfl
    · exact Or.inr rfl
  · refine Or.inr ⟨hc, ?_⟩
    unfold Shared.claimAt
    rw [h.offsetOf]
    cases hGet : (t.allocatedAreas r.consumer).get? (s.offsetOf x) with
    | none => exact Or.inl rfl
    | some y =>
      have hAt := h.kept _ _ _ hGet
      cases hAlone y hAt
      have hReq : (s.alloc x).releaseRequested = true := by
        by_contra hNot
        exact hc ⟨hAt, Bool.eq_false_of_not_eq_true hNot⟩
      simp only [h.before x hReq, if_true]
      exact Or.inr ⟨x, rfl⟩

/-- One claim of an area that is there: the allocation is asked for, and its
area is freed at once unless the device has to release it first. -/
theorem ReleaseInv.fire (h : ReleaseInv given s t calls) (hSep : Separate s given) {i : Nat}
    {c : VmId} {allocs taken todo toRelease toRelease' : List AllocId} {x : AllocId}
    (hi : calls[i]? = some ⟨c, allocs, taken, .claim (x :: todo) toRelease⟩)
    (hFrame : ReleaseFrame given s t' (calls.set i ⟨c, allocs, taken, .claim todo toRelease'⟩))
    (hc : s.Claimable c x)
    (hAlloc : t'.alloc = Function.update t.alloc x { t.alloc x with releaseRequested := true })
    (hAreas : (t'.allocatedAreas = t.allocatedAreas ∧ toRelease' = toRelease ++ [x]) ∨
      (t'.allocatedAreas =
        Function.update t.allocatedAreas c ((t.allocatedAreas c).erase (s.offsetOf x)) ∧
        toRelease' = toRelease)) :
    ReleaseInv given s t' (calls.set i ⟨c, allocs, taken, .claim todo toRelease'⟩) := by
  have hr := List.mem_of_getElem? hi
  have hGiven : (c, allocs) ∈ given := h.mem_given hr
  obtain ⟨⟨pre, hSplit, hPast⟩, hFresh, hAsked⟩ := h.reached _ hr
  have hSplit : allocs = pre ++ x :: todo := hSplit
  have hMem : x ∈ allocs := hSplit ▸ List.mem_append_cons_self
  have hDistinct : x ∉ todo := by
    have hNodup : allocs.Nodup := hSep.distinct _ hGiven
    rw [hSplit] at hNodup
    exact (List.nodup_cons.mp (List.nodup_append.mp hNodup).2.1).1
  have hFires : s.fires given x = true := fires_iff.mpr ⟨_, hGiven, hMem, hc⟩
  have hSelf : t'.alloc x = { t.alloc x with releaseRequested := true } := by
    rw [hAlloc, Function.update_self]
  have hOther : ∀ y, y ≠ x → t'.alloc y = t.alloc y := fun y hy => by
    rw [hAlloc, Function.update_of_ne hy]
  have hSub : ∀ {y}, y ∈ toRelease → y ∈ toRelease' := by
    intro y hy
    rcases hAreas with ⟨-, rfl⟩ | ⟨-, rfl⟩
    · exact List.mem_append_left _ hy
    · exact hy
  -- what is asked for stays so, and nothing but `x` is new
  have hMono : ∀ y, (t.alloc y).releaseRequested = true →
      (t'.alloc y).releaseRequested = true := by
    intro y hy
    by_cases hyx : y = x
    · rw [hyx, hSelf]
    · rw [hOther y hyx, hy]
  have hGet : ∀ c' o, ((t'.allocatedAreas c').get? o = (t.allocatedAreas c').get? o) ∨
      (c' = c ∧ o = s.offsetOf x ∧ (t'.allocatedAreas c').get? o = none) := by
    intro c' o
    rcases hAreas with ⟨hSame, -⟩ | ⟨hErase, -⟩
    · exact Or.inl (by rw [hSame])
    · rw [hErase]
      by_cases hc' : c' = c
      · subst hc'
        rw [Function.update_self, OrdMap.get?_erase]
        by_cases ho : o = s.offsetOf x
        · exact Or.inr ⟨rfl, ho, if_pos ho⟩
        · exact Or.inl (if_neg ho)
      · rw [Function.update_of_ne hc']
        exact Or.inl rfl
  refine ⟨hFrame, ?_, ?_, ?_, ?_, ?_⟩
  · exact fun y hy => hMono y (h.before y hy)
  · intro y hy
    by_cases hyx : y = x
    · subst hyx
      exact Or.inr hFires
    · rw [hOther y hyx] at hy
      exact h.requested y hy
  · intro c' o y hy
    rcases hGet c' o with hSame | ⟨-, -, hNone⟩
    · rw [hSame] at hy
      exact h.kept c' o y hy
    · rw [hNone] at hy
      cases hy
  · intro c' o y hy hGone
    rcases hGet c' o with hSame | ⟨rfl, rfl, -⟩
    · rw [hSame] at hGone
      obtain ⟨hf, hReq⟩ := h.lost c' o y hy hGone
      exact ⟨hf, hMono y hReq⟩
    · cases hSep.alone _ hGiven x hMem y hy
      exact ⟨hFires, by rw [hSelf]⟩
  · intro u hu
    obtain ⟨j, hj⟩ := List.getElem?_of_mem hu
    by_cases hij : j = i
    · subst hij
      rw [List.getElem?_set_self (List.getElem?_eq_some_iff.mp hi).1] at hj
      cases hj
      refine ⟨⟨pre ++ [x], by simpa [ReleaseCall.todo] using hSplit, fun y hy hcy => ?_⟩,
        fun y hy => ?_, fun y hy => ?_⟩
      · rcases List.mem_append.mp hy with hy | hy
        · obtain ⟨hReq, hGone⟩ := hPast y hy hcy
          refine ⟨hMono y hReq, hGone.imp hSub fun hNone => ?_⟩
          rcases hGet c (s.offsetOf y) with hSame | ⟨-, -, hNone'⟩
          · exact hSame.trans hNone
          · exact hNone'
        · cases List.mem_singleton.mp hy
          refine ⟨by rw [hSelf], ?_⟩
          rcases hAreas with ⟨-, rfl⟩ | ⟨hErase, -⟩
          · exact Or.inl (List.mem_append_right _ (List.mem_singleton.mpr rfl))
          · refine Or.inr ?_
            rw [hErase, Function.update_self, OrdMap.get?_erase, if_pos rfl]
      · have hyx : y ≠ x := fun heq => hDistinct (heq ▸ hy)
        rw [hOther y hyx]
        exact hFresh y (List.mem_cons_of_mem x hy)
      · have hCases : y ∈ toRelease ∨ y = x := by
          rcases hAreas with ⟨-, rfl⟩ | ⟨-, rfl⟩
          · exact (List.mem_append.mp hy).imp id List.mem_singleton.mp
          · exact Or.inl hy
        rcases hCases with hOld | rfl
        · obtain ⟨hy', hcy, hReq⟩ := hAsked y hOld
          exact ⟨hy', hcy, hMono y hReq⟩
        · exact ⟨hMem, hc, by rw [hSelf]⟩
    · rw [List.getElem?_set_ne (Ne.symm hij)] at hj
      have hne := h.consumer_ne hSep.consumers hi hj hij
      refine (h.reached u (List.mem_of_getElem? hj)).congr (fun y hy => ?_) ?_
      · rw [hOther]
        rintro rfl
        exact hne ((hSep.own _ (h.mem_given (List.mem_of_getElem? hj)) y hy).symm.trans
          (hSep.own _ hGiven y hMem))
      · rcases hAreas with ⟨hSame, -⟩ | ⟨hErase, -⟩
        · rw [hSame]
        · rw [hErase]
          exact Function.update_of_ne hne _ _

/-- What leaves the areas is what a call has asked for. -/
theorem ReleaseInv.clear (h : ReleaseInv given s t calls) (hFrame : ReleaseFrame given s t' calls)
    (hAlloc : t'.alloc = t.alloc)
    (hKept : ∀ c o y, (t'.allocatedAreas c).get? o = some y →
      (t.allocatedAreas c).get? o = some y)
    (hGone : ∀ c o y, (t.allocatedAreas c).get? o = some y →
      (t'.allocatedAreas c).get? o = none → ∃ r ∈ calls, r.consumer = c ∧ y ∈ r.asked) :
    ReleaseInv given s t' calls where
  toReleaseFrame := hFrame
  before x hx := by
    rw [hAlloc]
    exact h.before x hx
  requested x hx := by
    rw [hAlloc] at hx
    exact h.requested x hx
  kept c o y hy := h.kept c o y (hKept c o y hy)
  lost c o y hy hNone := by
    rw [hAlloc]
    cases hGet : (t.allocatedAreas c).get? o with
    | none => exact h.lost c o y hy hGet
    | some z =>
      cases (h.kept c o z hGet).symm.trans hy
      obtain ⟨r, hr, rfl, hAsked⟩ := hGone c o y hGet hNone
      obtain ⟨hMem, hc, hReq⟩ := (h.reached r hr).asked y hAsked
      exact ⟨fires_iff.mpr ⟨_, h.mem_given hr, hMem, hc⟩, hReq⟩
  reached r hr := by
    obtain ⟨⟨pre, hSplit, hPast⟩, hFresh, hAsked⟩ := h.reached r hr
    refine ⟨⟨pre, hSplit, fun x hx hc => ?_⟩, ?_, ?_⟩
    · rw [hAlloc]
      obtain ⟨hReq, hOut⟩ := hPast x hx hc
      refine ⟨hReq, hOut.imp id fun hNone => ?_⟩
      by_contra hSome
      obtain ⟨y, hy⟩ := Option.ne_none_iff_exists'.mp hSome
      rw [hKept _ _ y hy] at hNone
      cases hNone
    · rw [hAlloc]
      exact hFresh
    · rw [hAlloc]
      exact hAsked

/-- A call that has nothing left to look at is done once its areas are free. -/
theorem ReleaseCall.Reached.done {c : VmId} {allocs taken : List AllocId} {pc : ReleasePc}
    (h : ReleaseCall.Reached s t ⟨c, allocs, taken, pc⟩)
    (hTodo : ReleaseCall.todo ⟨c, allocs, taken, pc⟩ = [])
    (hFree : ∀ x ∈ ReleaseCall.asked ⟨c, allocs, taken, pc⟩,
      (t.allocatedAreas c).get? (s.offsetOf x) = none) :
    ReleaseCall.Reached s t ⟨c, allocs, taken, .done⟩ := by
  obtain ⟨pre, hSplit, hPast⟩ := h.past
  rw [hTodo] at hSplit
  refine ⟨⟨pre, hSplit, fun x hx hc => ?_⟩, nofun, nofun⟩
  obtain ⟨hReq, hOut⟩ := hPast x hx hc
  exact ⟨hReq, Or.inr (hOut.elim (hFree x) id)⟩

/-- **One step.** Each allocation is claimed, sent and waited for by the call it
was given to. -/
theorem ReleaseInv.step {tid : Tid} {i : Nat} {op : Op} (h : ReleaseInv given s t calls)
    (hSep : Separate s given) (hi : calls[i]? = some r) (hs : ReleaseCall.Step tid t r op r') :
    ReleaseInv given s (op.exec t) (calls.set i r') := by
  have hr := List.mem_of_getElem? hi
  have hReached := h.reached r hr
  have hFrame := h.toReleaseFrame.step hSep.consumers hi hs
  cases hs with
  | @enter c allocs taken _ =>
    exact h.goto hFrame rfl rfl ⟨hReached.past, hReached.fresh, fun x hx => by cases hx⟩
  | @claim c allocs taken todo toRelease x =>
    rcases h.claimAt hSep hr (x := x) (List.mem_cons_self ..) with
      ⟨hc, hClaim | hClaim⟩ | ⟨hc, hNothing⟩
    · refine h.fire hSep hi hFrame hc ?_ (Or.inl ⟨?_, by rw [hClaim]; rfl⟩) <;>
        simp only [Op.exec, hClaim] <;> rfl
    · refine h.fire hSep hi hFrame hc ?_ (Or.inr ⟨?_, ?_⟩)
      · simp only [Op.exec, hClaim]
        rfl
      · simp only [Op.exec, hClaim, ← h.offsetOf]
        rfl
      · rw [hClaim]
        exact List.append_nil _
    · have hSame : (Op.claimRelease c x allocs (decide (x ∈ taken))).exec t = t := by
        rcases hNothing with hClaim | ⟨y, hClaim⟩ <;> simp only [Op.exec, hClaim]
      have hNone : toRelease ++ (t.claimAt c x).toRelease = toRelease := by
        rcases hNothing with hClaim | ⟨y, hClaim⟩ <;> rw [hClaim] <;> exact List.append_nil _
      rw [hSame, hNone] at hFrame ⊢
      obtain ⟨⟨pre, hSplit, hPast⟩, hFresh, hAsked⟩ := hReached
      refine h.goto hFrame rfl rfl
        ⟨⟨pre ++ [x], ?_, fun y hy hcy => ?_⟩, fun y hy => hFresh y (List.mem_cons_of_mem x hy),
          hAsked⟩
      · rw [List.append_assoc]
        exact hSplit
      · rcases List.mem_append.mp hy with hy | hy
        · exact hPast y hy hcy
        · cases List.mem_singleton.mp hy
          exact absurd hcy hc
  | nothing => exact h.goto hFrame rfl rfl (hReached.done rfl fun x hx => by cases hx)
  | claimed => exact h.goto hFrame rfl rfl ⟨hReached.past, hReached.fresh, hReached.asked⟩
  | sent => exact h.goto hFrame rfl rfl ⟨hReached.past, hReached.fresh, hReached.asked⟩
  | failed => exact h.goto hFrame rfl rfl ⟨hReached.past, hReached.fresh, hReached.asked⟩
  | confirmed hFree =>
    rw [h.offsetOf] at hFree
    exact h.goto hFrame rfl rfl (hReached.done rfl hFree)
  | timedOut _ => exact h.goto hFrame rfl rfl ⟨hReached.past, hReached.fresh, hReached.asked⟩
  | @manual c allocs taken toRelease =>
    have hGet : ∀ c' o, (((Op.removeAreas c allocs toRelease).exec t).allocatedAreas c').get? o =
        if c' = c ∧ o ∈ toRelease.map s.offsetOf then none else (t.allocatedAreas c').get? o := by
      intro c' o
      by_cases hc' : c' = c
      · subst hc'
        simp only [Op.exec, Shared.setAreas, Function.update_self, OrdMap.get?_eraseAll,
          h.offsetOf, true_and]
      · rw [if_neg fun hAnd => hc' hAnd.1]
        simp only [Op.exec, Shared.setAreas, Function.update_of_ne hc']
    have hCleared : ReleaseInv given s ((Op.removeAreas c allocs toRelease).exec t) calls := by
      refine h.clear (h.toReleaseFrame.exec (Or.inl rfl) rfl h.locked) rfl (fun c' o y hy => ?_)
        fun c' o y hy hNone => ?_
      · rw [hGet] at hy
        split at hy
        · cases hy
        · exact hy
      · rw [hGet] at hNone
        split at hNone
        · rename_i hIn
          obtain ⟨rfl, hMem⟩ := hIn
          obtain ⟨x, hx, rfl⟩ := List.mem_map.mp hMem
          obtain ⟨hAllocs, -, -⟩ := hReached.asked x hx
          have hyx := hSep.alone _ (h.mem_given hr) x hAllocs y (h.kept _ _ _ hy)
          exact ⟨_, hr, rfl, hyx ▸ hx⟩
        · rw [hy] at hNone
          cases hNone
    refine hCleared.goto hFrame rfl rfl ((hCleared.reached _ hr).done rfl fun x hx => ?_)
    rw [hGet]
    exact if_pos ⟨rfl, List.mem_map_of_mem hx⟩

/-- What QEMU confirms a call no longer waits for. -/
theorem ReleaseInv.confirm {op : Op} (h : ReleaseInv given s t calls)
    (hOp : Confirms t calls op) : ReleaseInv given s (op.exec t) calls := by
  have hFrame := h.toReleaseFrame.confirm hOp
  have hKeep : ∀ c o y, (t.allocatedAreas c).get? o = some y →
      (t.allocatedAreas c).get? o = none →
      ∃ r ∈ calls, r.consumer = c ∧ y ∈ r.asked := by
    intro c o y hy hNone
    rw [hy] at hNone
    cases hNone
  cases hOp with
  | emitted => exact h.clear hFrame rfl (fun _ _ _ hy => hy) hKeep
  | received => exact h.clear hFrame rfl (fun _ _ _ hy => hy) hKeep
  | @handled c extents about hGone =>
    have hOther : ∀ c', c' ≠ c → ((Op.signalReleaseDc c extents about).exec t).allocatedAreas c' =
        t.allocatedAreas c' := fun c' hc' => Function.update_of_ne hc' _ _
    refine h.clear hFrame rfl (fun c' o y hy => ?_) fun c' o y hy hNone => ?_
    · exact get?_exec_areas (fun _ _ => Op.noConfusion) hy
    · by_cases hc' : c' = c
      · subst hc'
        obtain ⟨r, hr, hConsumer, toRelease, hPc, hMem⟩ := hGone o y hy hNone
        refine ⟨r, hr, hConsumer, ?_⟩
        rw [ReleaseCall.asked, hPc]
        exact hMem
      · rw [hOther c' hc', hy] at hNone
        cases hNone

theorem ReleaseInv.init (hFree : ∀ c, s.consumerLock c = none)
    (hCalled : calls.map (fun r => (r.consumer, r.allocs)) = given)
    (hEnter : ∀ r ∈ calls, r.pc = .enter) : ReleaseInv given s s calls where
  toReleaseFrame := .init hFree hCalled
  before _ hx := hx
  requested _ hx := Or.inl hx
  kept _ _ _ hy := hy
  lost c o y hy hNone := by
    rw [hy] at hNone
    cases hNone
  reached r hr := by
    have hTodo : r.todo = r.allocs := by rw [ReleaseCall.todo, hEnter r hr]
    have hAsked : r.asked = [] := by rw [ReleaseCall.asked, hEnter r hr]
    refine ⟨⟨[], by rw [hTodo, List.nil_append], nofun⟩, fun _ _ => rfl, ?_⟩
    rw [hAsked]
    exact fun _ hx => absurd hx List.not_mem_nil

end Step

-- ---------------------------------------------------------------------------
-- The end
-- ---------------------------------------------------------------------------

/-- Where release calls of `given` that began in `s` leave the state. -/
structure ReleasedAll (given : List (VmId × List AllocId)) (s t : Shared) : Prop where
  aside : Aside s t
  donor : t.donor = s.donor
  alloc : ∀ x, t.alloc x =
    { s.alloc x with releaseRequested := (s.alloc x).releaseRequested || s.fires given x }
  areas : ∀ c o y, (t.allocatedAreas c).get? o = some y ↔
    (s.allocatedAreas c).get? o = some y ∧ s.fires given y = false
  unlocked : ∀ c, t.consumerLock c = none
  returns : ∀ d, t.returnsTo d = s.returnsTo d

/-- When all calls are done, everything is. -/
theorem ReleaseInv.released {given : List (VmId × List AllocId)} {s t : Shared}
    {calls : List ReleaseCall} (h : ReleaseInv given s t calls) (hSep : Separate s given)
    (hDone : ∀ r ∈ calls, r.pc = .done) : ReleasedAll given s t := by
  -- what a call was to release is asked for, and its area is free
  have hFired : ∀ x, s.fires given x = true → (t.alloc x).releaseRequested = true ∧
      ∀ c o, (t.allocatedAreas c).get? o ≠ some x := by
    intro x hx
    obtain ⟨g, hg, hMem, hc⟩ := fires_iff.mp hx
    rw [← h.called] at hg
    obtain ⟨r, hr, rfl⟩ := List.mem_map.mp hg
    obtain ⟨pre, hSplit, hPast⟩ := (h.reached r hr).past
    have hTodo : r.todo = [] := by rw [ReleaseCall.todo, hDone r hr]
    have hAsked : r.asked = [] := by rw [ReleaseCall.asked, hDone r hr]
    rw [hTodo, List.append_nil] at hSplit
    obtain ⟨hReq, hOut⟩ := hPast x (hSplit ▸ hMem) hc
    rw [hAsked] at hOut
    refine ⟨hReq, fun c o hAt => ?_⟩
    obtain ⟨-, hConsumer, hOffset, -⟩ := hSep.areas _ _ _ (h.kept c o x hAt)
    obtain ⟨-, hConsumer', -⟩ := hSep.areas _ _ _ hc.1
    rw [← hOffset, ← hConsumer, hConsumer'] at hAt
    rw [hOut.resolve_left nofun] at hAt
    cases hAt
  refine ⟨h.aside, h.donor, fun x => ?_, fun c o y => ⟨fun hy => ⟨h.kept c o y hy, ?_⟩, ?_⟩, ?_,
    h.returns⟩
  · have hReq : (t.alloc x).releaseRequested =
        ((s.alloc x).releaseRequested || s.fires given x) := by
      rw [Bool.eq_iff_iff, Bool.or_eq_true]
      exact ⟨h.requested x, fun hx => hx.elim (h.before x) fun hf => (hFired x hf).1⟩
    rw [← hReq]
    exact h.alloc x
  · by_contra hFires
    exact (hFired y (Bool.eq_true_of_not_eq_false hFires)).2 c o hy
  · rintro ⟨hy, hNot⟩
    cases hGet : (t.allocatedAreas c).get? o with
    | none =>
      rw [(h.lost c o y hy hGet).1] at hNot
      cases hNot
    | some z => rw [← hy, h.kept c o z hGet]
  · exact h.toReleaseFrame.end_unlocked hDone

-- ---------------------------------------------------------------------------
-- Getting there
-- ---------------------------------------------------------------------------

/-- The steps a call has to go. -/
def ReleaseCall.left (r : ReleaseCall) : Nat :=
  match r.pc with
  | .enter => r.allocs.length + 6
  | .claim todo _ => todo.length + 5
  | .send _ => 4
  | .wait _ => 3
  | .manual _ => 2
  | .done => 0

/-- Every step leaves less to do. -/
theorem ReleaseCall.Step.left_lt {tid : Tid} {s : Shared} {r r' : ReleaseCall} {op : Op}
    (h : ReleaseCall.Step tid s r op r') : r'.left < r.left := by
  cases h <;> simp [ReleaseCall.left]

/-- A call that is not done can go on once its consumer's mutex is free: it
does not wait for good. -/
theorem ReleaseCall.moves {s : Shared} {r : ReleaseCall} (tid : Tid)
    (hFree : r.locks = false → s.consumerLock r.consumer = none) (h : r.pc ≠ .done) :
    ∃ ch op r', r.next tid s ch = some (op, r') := by
  suffices ∃ ch, (r.next tid s ch).isSome by
    obtain ⟨ch, hSome⟩ := this
    obtain ⟨p, hp⟩ := Option.isSome_iff_exists.mp hSome
    exact ⟨ch, p.1, p.2, hp⟩
  obtain ⟨c, allocs, taken, pc⟩ := r
  cases pc with
  | enter =>
    refine ⟨.go, ?_⟩
    simp only [ReleaseCall.next, hFree rfl, if_true]
    rfl
  | claim todo toRelease =>
    refine ⟨.go, ?_⟩
    cases todo <;> rfl
  | send toRelease => exact ⟨.outcome true, rfl⟩
  | wait toRelease =>
    refine ⟨.timeout, ?_⟩
    simp only [ReleaseCall.next, hFree rfl, if_true]
    split <;> rfl
  | manual toRelease =>
    refine ⟨.go, ?_⟩
    simp only [ReleaseCall.next, hFree rfl, if_true]
    rfl
  | done => exact absurd rfl h

end EphMemory.Orchestrator
