import EphMemory.Lib.Drain
import EphMemory.Orchestrator.Returning
import EphMemory.Orchestrator.Rounds

/-!
# Orchestrator — the locks

`main.rs` orders the locks: the VM list first, then a donor's mutex or a
consumer's, and no QMP or vsock command while one of them is held. What follows
from the threads as they are:

* `GuardLaw` — along every run, a mutex is taken exactly when one section of one
  thread is inside it, and the VM list has as many readers as threads walk it;
* `Task.inner_move` — a thread inside a section can move whatever QEMU does;
* `Task.busy_move` — once all locks are free, every thread that is not at rest
  can move;
* `deadlock_free` — from every reachable state, moves inside the open sections
  alone lead to a state with all locks free.
-/

namespace EphMemory.Orchestrator

open EphMemory.Lib
open EphMemory.Lib.Machine

-- ---------------------------------------------------------------------------
-- Who is inside
-- ---------------------------------------------------------------------------

/-- What threads go through one at a time, or read together. -/
inductive Guard where
  | donor (v : VmId)
  | consumer (c : VmId)
  | vmList
  deriving DecidableEq, Repr

/-- One for the guard itself. -/
def Guard.one (g h : Guard) : Int := if g = h then 1 else 0

theorem Guard.one_self (g : Guard) : g.one g = 1 := if_pos rfl

theorem Guard.one_ne {g h : Guard} (hne : g ≠ h) : g.one h = 0 := if_neg hne

theorem Guard.one_nonneg (g h : Guard) : 0 ≤ g.one h := by
  unfold Guard.one
  split <;> omega

/-- A mutex lets one in. -/
def locked (lock : VmId → Option Tid) (v : VmId) : Int := if lock v = none then 0 else 1

/-- How many are inside, as the lock has it. -/
def Shared.inside (s : Shared) : Guard → Int
  | .donor v => locked s.donorLock v
  | .consumer c => locked s.consumerLock c
  | .vmList => s.vmListReaders

/-- How many an operation lets in. -/
def Op.enters (g : Guard) : Op → Int
  | .lockConsumer c _ => g.one (.consumer c)
  | .unlockConsumer c => - g.one (.consumer c)
  | .unlockDonor v => - g.one (.donor v)
  | .beginRevoke d _ _ => g.one (.donor d.donorVm)
  | .bookDebt d _ => - g.one (.donor d.donorVm)
  | .beginSnapshot v _ => g.one (.donor v)
  | .readVmList => g.one .vmList
  | .unreadVmList => - g.one .vmList
  | .reserveFromRegion _ _ _ => - g.one .vmList
  | _ => 0

def ReleaseCall.inside (g : Guard) (r : ReleaseCall) : Int :=
  match r.pc with
  | .claim _ _ => g.one (.consumer r.consumer)
  | _ => 0

def ReturnCall.inside (g : Guard) (r : ReturnCall) : Int :=
  match r.pc with
  | .release calls _ => weigh (ReleaseCall.inside g) calls
  | _ => 0

def AllocCall.inside (g : Guard) (a : AllocCall) : Int :=
  match a.pc with
  | .scan _ => g.one .vmList
  | _ => 0

/-- How many sections of a thread are inside the guard: the parallel calls of a
return are one each. -/
def Task.inside (g : Guard) : Task → Int
  | .request ⟨_, .allocate call _⟩ => call.inside g
  | .request ⟨_, .drop call _⟩ => call.inside g
  | .request ⟨_, .returnDead call _⟩ => call.inside g
  | .request ⟨_, .returnAll call⟩ => call.inside g
  | .revoke ⟨d, .select _ _ _⟩ => g.one (.donor d.donorVm)
  | .revoke ⟨_, .giveBack call⟩ => call.inside g
  | .detection (.consumerReturn call _ _) => call.inside g
  | .detection (.donorCollect _ _ v _) => g.one (.donor v)
  | .detection (.donorReturn call _ _) => call.inside g
  | _ => 0

section

variable {tid : Tid} {s : Shared} {op : Op} (g : Guard)

theorem ReleaseCall.inside_nonneg (r : ReleaseCall) : 0 ≤ r.inside g := by
  unfold ReleaseCall.inside
  split
  · exact g.one_nonneg _
  · exact Int.le_refl 0

theorem ReturnCall.inside_nonneg (r : ReturnCall) : 0 ≤ r.inside g := by
  unfold ReturnCall.inside
  split
  · exact weigh_nonneg (ReleaseCall.inside_nonneg g) _
  · exact Int.le_refl 0

theorem AllocCall.inside_nonneg (a : AllocCall) : 0 ≤ a.inside g := by
  unfold AllocCall.inside
  split
  · exact g.one_nonneg _
  · exact Int.le_refl 0

/-- No thread counts as less than outside, so the counts of different threads
cannot cancel. -/
theorem Task.inside_nonneg (t : Task) : 0 ≤ t.inside g := by
  unfold Task.inside
  split
  · exact AllocCall.inside_nonneg g _
  · exact ReleaseCall.inside_nonneg g _
  · exact ReturnCall.inside_nonneg g _
  · exact ReturnCall.inside_nonneg g _
  · exact g.one_nonneg _
  · exact ReturnCall.inside_nonneg g _
  · exact ReturnCall.inside_nonneg g _
  · exact g.one_nonneg _
  · exact ReturnCall.inside_nonneg g _
  · exact Int.le_refl 0

/-- A release is inside its consumer's mutex from taking it to giving it up. -/
theorem ReleaseCall.Step.inside {r r' : ReleaseCall} (h : ReleaseCall.Step tid s r op r') :
    r'.inside g = r.inside g + op.enters g := by
  cases h with
  | enter _ => exact (Int.zero_add _).symm
  | nothing => exact (Int.add_right_neg _).symm
  | claimed => exact (Int.add_right_neg _).symm
  | _ => exact (Int.add_zero _).symm

/-- Giving back capacity takes no lock: the donor's mutex is taken and released
in one operation. -/
theorem GiveBack.Step.enters {b b' : GiveBack} (h : GiveBack.Step s b op b') :
    op.enters g = 0 := by
  cases h <;> rfl

/-- One of the parallel releases steps, the others are where they were. -/
theorem ReturnCall.Step.inside {r r' : ReturnCall} (h : ReturnCall.Step tid s r op r') :
    r'.inside g = r.inside g + op.enters g := by
  cases h with
  | @organized allocs cons dons =>
    show weigh _ _ = 0 + 0
    refine weigh_eq_zero fun r hr => ?_
    obtain ⟨q, -, rfl⟩ := List.mem_map.mp hr
    rfl
  | @release allocs calls dons i r r' op hi hr =>
    show weigh _ _ = weigh _ _ + op.enters g
    rw [weigh_set r' hi, hr.inside g]
    ring
  | @released allocs calls dons hDone =>
    show 0 = weigh _ calls + 0
    rw [weigh_eq_zero fun r hr => by rw [ReleaseCall.inside, hDone r hr]]
    rfl
  | giveBack _ hg => exact (congrArg (0 + ·) (hg.enters g)).symm
  | _ => exact (Int.add_zero _).symm

/-- A call walks the VM list from looking at it until it reserves or gives up. -/
theorem AllocCall.Step.inside {a a' : AllocCall} (h : AllocCall.Step s a op a') :
    a'.inside g = a.inside g + op.enters g := by
  cases h with
  | look => exact (Int.zero_add _).symm
  | noDonor => exact (Int.add_right_neg _).symm
  | reserve => exact (Int.add_right_neg _).symm
  | @reserveOut _ rest _ _ _ r hLt =>
    exact absurd (sizeToAllocate_div_le r rest.length) (Nat.not_le.mpr hLt)
  | giveBack hg => exact (congrArg (0 + ·) (hg.enters g)).symm
  | _ => exact (Int.add_zero _).symm

theorem inside_afterDead (c : VmId) (live : List AllocId) :
    Task.inside g (.request ⟨c, Request.afterDead live⟩) = 0 := by
  unfold Request.afterDead
  split <;> rfl

theorem inside_reserve (c : VmId) (remaining : Nat) (rsvd : List AllocId) :
    Task.inside g (.request ⟨c, .reserve remaining rsvd⟩) = 0 := rfl

/-- A request is inside what the call it is in is inside, and holds nothing
between calls. -/
theorem Request.Step.inside {q q' : Request} (h : Request.Step tid s q op q') :
    Task.inside g (.request q') = Task.inside g (.request q) + op.enters g := by
  cases h with
  | reserve =>
    rw [inside_reserve, inside_reserve]
    rfl
  | allocate hc => exact hc.inside g
  | @allocated c call rsvd hDone =>
    show 0 = call.inside g + 0
    rw [AllocCall.inside, hDone]
    rfl
  | drop hr => exact hr.inside g
  | @dropped c call rsvd hDone =>
    show 0 = call.inside g + 0
    rw [ReleaseCall.inside, hDone]
    rfl
  | allLive => exact inside_afterDead g _ _
  | returnDead hr => exact hr.inside g
  | @returnedDead c call live hDone =>
    rw [inside_afterDead]
    show 0 = call.inside g + 0
    rw [ReturnCall.inside, hDone]
    rfl
  | returnAll hr => exact hr.inside g
  | @returnedAll c call hDone =>
    show 0 = call.inside g + 0
    rw [ReturnCall.inside, hDone]
    rfl
  | _ => exact (Int.add_zero _).symm

/-- A revoke is inside its donor's mutex while it selects. -/
theorem Revoke.Step.inside {v v' : Revoke} (h : Revoke.Step tid s v op v') :
    Task.inside g (.revoke v') = Task.inside g (.revoke v) + op.enters g := by
  cases h with
  | enter => exact (Int.zero_add _).symm
  | enough => exact (Int.add_right_neg _).symm
  | giveBack hr => exact hr.inside g
  | @gaveBack d call hDone =>
    show 0 = call.inside g + 0
    rw [ReturnCall.inside, hDone]
    rfl
  | _ => exact (Int.add_zero _).symm

/-- The detection is inside a donor's mutex while it collects the donor's allocations. -/
theorem Detection.Step.inside {l l' : Detection} (h : Detection.Step tid s l op l') :
    Task.inside g (.detection l') = Task.inside g (.detection l) + op.enters g := by
  cases h with
  | consumerReturn hr => exact hr.inside g
  | @consumerReturned call v vms hDone =>
    show 0 = call.inside g + 0
    rw [ReturnCall.inside, hDone]
    rfl
  | snapshot => exact (Int.zero_add _).symm
  | collected => exact (Int.add_right_neg _).symm
  | donorReturn hr => exact hr.inside g
  | @donorReturned call v vms hDone =>
    show 0 = call.inside g + 0
    rw [ReturnCall.inside, hDone]
    rfl
  | _ => exact (Int.add_zero _).symm

/-- A thread is inside after a step as it was before, apart from what its
operation says. -/
theorem Task.Step.inside {t t' : Task} {started : List Task}
    (h : Task.Step tid s t op t' started) :
    t'.inside g + weigh (Task.inside g) started = t.inside g + op.enters g := by
  cases h with
  | events hl =>
    cases hl with
    | revokeEvent => rfl
    | _ => rfl
  | detection hl => exact (Int.add_zero _).trans (hl.inside g)
  | request hq => exact (Int.add_zero _).trans (hq.inside g)
  | revoke hv => exact (Int.add_zero _).trans (hv.inside g)

end

-- ---------------------------------------------------------------------------
-- The law
-- ---------------------------------------------------------------------------

/-- A mutex lets in one at a time, whatever the threads do. -/
theorem locked_le_one (lock : VmId → Option Tid) (v : VmId) : locked lock v ≤ 1 := by
  unfold locked
  split <;> omega

theorem locked_pos {lock : VmId → Option Tid} {v : VmId} (h : lock v ≠ none) :
    locked lock v = 1 := if_neg h

theorem locked_free {lock : VmId → Option Tid} {v : VmId} (h : lock v = none) :
    locked lock v = 0 := if_pos h

/-- A mutex that counts nobody is free. -/
theorem free_of_locked {lock : VmId → Option Tid} {v : VmId} (h : locked lock v = 0) :
    lock v = none := by
  by_contra hne
  rw [locked_pos hne] at h
  cases h

/-- Taking a free mutex lets one into it and into no other. -/
theorem locked_take {lock : VmId → Option Tid} {v : VmId} (w : VmId) (tid : Tid)
    (hFree : lock v = none) :
    locked (Function.update lock v (some tid)) w = locked lock w + if w = v then 1 else 0 := by
  by_cases h : w = v
  · subst h
    rw [if_pos rfl, locked_free hFree, locked_pos (by rw [Function.update_self]; simp)]
    rfl
  · rw [if_neg h, locked, Function.update_of_ne h]
    exact (Int.add_zero _).symm

/-- Giving up a mutex lets one out of it and out of no other. -/
theorem locked_give {lock : VmId → Option Tid} {v : VmId} (w : VmId) (hTaken : lock v ≠ none) :
    locked (Function.update lock v none) w = locked lock w + -(if w = v then 1 else 0) := by
  by_cases h : w = v
  · subst h
    rw [if_pos rfl, locked_pos hTaken, locked_free (Function.update_self ..)]
    rfl
  · rw [if_neg h, locked, Function.update_of_ne h]
    exact (Int.add_zero _).symm

/-- Two donors' mutexes are the same when the donors are. -/
@[simp] theorem Guard.one_donor (v w : VmId) :
    (Guard.donor v).one (.donor w) = if v = w then 1 else 0 := by
  simp only [Guard.one, Guard.donor.injEq]

/-- Two consumers' mutexes are the same when the consumers are. -/
@[simp] theorem Guard.one_consumer (c e : VmId) :
    (Guard.consumer c).one (.consumer e) = if c = e then 1 else 0 := by
  simp only [Guard.one, Guard.consumer.injEq]

/-- The mutex an operation takes is free. -/
def Op.Takes (s : Shared) : Op → Prop
  | .lockConsumer c _ => s.consumerLock c = none
  | .beginRevoke d _ _ => s.donorLock d.donorVm = none
  | .beginSnapshot v _ => s.donorLock v = none
  | _ => True

/-- What an operation leaves was entered. -/
def Op.Leaves (s : Shared) (op : Op) : Prop := ∀ g, op.enters g = -1 → 0 < s.inside g

/-- A mutex that somebody is inside is taken. -/
theorem ne_none_of_locked {lock : VmId → Option Tid} {v : VmId} (h : 0 < locked lock v) :
    lock v ≠ none := by
  intro hFree
  rw [locked_free hFree] at h
  omega

/-- An operation that takes what is free and leaves what was entered changes the
count of every lock by what it says it does. -/
theorem inside_exec {op : Op} {s : Shared} (g : Guard) (hTakes : op.Takes s)
    (hLeaves : op.Leaves s) : (op.exec s).inside g = s.inside g + op.enters g := by
  have hOne : ∀ g : Guard, - g.one g = -1 := fun g => by rw [g.one_self]
  cases op with
  | lockConsumer c tid =>
    cases g with
    | consumer e =>
      refine (locked_take e tid hTakes).trans ?_
      rw [Op.enters, Guard.one_consumer]
      rfl
    | _ => exact (Int.add_zero _).symm
  | unlockConsumer c =>
    cases g with
    | consumer e =>
      refine (locked_give e (ne_none_of_locked (hLeaves (.consumer c) (hOne _)))).trans ?_
      rw [Op.enters, Guard.one_consumer]
      rfl
    | _ => exact (Int.add_zero _).symm
  | unlockDonor v =>
    cases g with
    | donor w =>
      refine (locked_give w (ne_none_of_locked (hLeaves (.donor v) (hOne _)))).trans ?_
      rw [Op.enters, Guard.one_donor]
      rfl
    | _ => exact (Int.add_zero _).symm
  | beginRevoke d n tid =>
    cases g with
    | donor w =>
      refine (locked_take w tid hTakes).trans ?_
      rw [Op.enters, Guard.one_donor]
      rfl
    | _ => exact (Int.add_zero _).symm
  | bookDebt d n =>
    cases g with
    | donor w =>
      refine (locked_give w (ne_none_of_locked (hLeaves (.donor d.donorVm) (hOne _)))).trans ?_
      rw [Op.enters, Guard.one_donor]
      rfl
    | _ => exact (Int.add_zero _).symm
  | beginSnapshot v tid =>
    cases g with
    | donor w =>
      refine (locked_take w tid hTakes).trans ?_
      rw [Op.enters, Guard.one_donor]
      rfl
    | _ => exact (Int.add_zero _).symm
  | readVmList => cases g <;> first | rfl | exact (Int.add_zero _).symm
  | unreadVmList =>
    cases g with
    | vmList =>
      have hPos : 0 < (s.vmListReaders : Int) := hLeaves .vmList (hOne _)
      show ((s.vmListReaders - 1 : Nat) : Int) = s.vmListReaders + -1
      omega
    | _ => exact (Int.add_zero _).symm
  | reserveFromRegion d size ids =>
    cases g with
    | vmList =>
      have hPos : 0 < (s.vmListReaders : Int) := hLeaves .vmList (hOne _)
      show ((s.vmListReaders - 1 : Nat) : Int) = s.vmListReaders + -1
      omega
    | _ => exact (Int.add_zero _).symm
  | handleReservedAlloc d ids requested granted =>
    refine Eq.trans ?_ (Int.add_zero _).symm
    simp only [Op.exec]
    split <;> cases g <;> rfl
  | commitState x =>
    refine Eq.trans ?_ (Int.add_zero _).symm
    simp only [Op.exec]
    split <;> cases g <;> rfl
  | bookkeep d x =>
    refine Eq.trans ?_ (Int.add_zero _).symm
    simp only [Op.exec]
    split
    · rfl
    · split <;> cases g <;> rfl
  | tryClaim d x =>
    refine Eq.trans ?_ (Int.add_zero _).symm
    simp only [Op.exec]
    split <;> cases g <;> rfl
  | claimRelease c x call taken =>
    refine Eq.trans ?_ (Int.add_zero _).symm
    simp only [Op.exec]
    split <;> cases g <;> rfl
  | _ => cases g <;> exact (Int.add_zero _).symm

/-- A release waits for its consumer's mutex. -/
theorem ReturnCall.Step.takes {tid : Tid} {s : Shared} {r r' : ReturnCall} {op : Op}
    (h : ReturnCall.Step tid s r op r') : op.Takes s := by
  cases h with
  | release _ hr => cases hr <;> first | assumption | trivial
  | giveBack _ hg => cases hg <;> trivial
  | _ => trivial

/-- No thread goes on past a mutex that is taken. -/
theorem Task.Step.takes {tid : Tid} {s : Shared} {t t' : Task} {op : Op} {started : List Task}
    (h : Task.Step tid s t op t' started) : op.Takes s := by
  cases h with
  | events hl => cases hl <;> trivial
  | detection hl =>
    cases hl with
    | consumerReturn hr => exact hr.takes
    | donorReturn hr => exact hr.takes
    | snapshot hFree => exact hFree
    | _ => trivial
  | request hq =>
    cases hq with
    | allocate hc =>
      cases hc with
      | giveBack hg => cases hg <;> trivial
      | _ => trivial
    | drop hr => cases hr <;> first | assumption | trivial
    | returnDead hr => exact hr.takes
    | returnAll hr => exact hr.takes
    | _ => trivial
  | revoke hv =>
    cases hv with
    | enter _ hFree _ => exact hFree
    | giveBack hr => exact hr.takes
    | _ => trivial

/-- The locks and the threads agree on who is inside. -/
def GuardLaw (s : System) : Prop := ∀ g, s.shared.inside g = weigh (Task.inside g) s.tasks

/-- A thread leaves only what it is inside of itself. -/
theorem GuardLaw.leaves {s : System} (h : GuardLaw s) {i : Nat} {t t' : Task} {op : Op}
    {started : List Task} (ht : s.tasks[i]? = some t)
    (hs : Task.Step i s.shared t op t' started) : op.Leaves s.shared := by
  intro g hOut
  have hStep := hs.inside g
  have hAfter := t'.inside_nonneg g
  have hNew := weigh_nonneg (Task.inside_nonneg g) started
  have hLe := le_weigh (Task.inside_nonneg g) ht
  rw [h g]
  omega

/-- What comes from outside takes no lock, and the threads it starts are outside
all of them. -/
theorem OutsideStep.enters {s : Shared} {op : Op} {started : List Task}
    (h : OutsideStep s op started) (g : Guard) :
    op.enters g = 0 ∧ weigh (Task.inside g) started = 0 := by
  cases h <;> exact ⟨rfl, rfl⟩

/-- The operation and the thread that performs it change their counts alike. -/
theorem GuardLaw.move {s s' : System} {op : Op} (h : GuardLaw s)
    (hm : orchestrator.Move s op s') : GuardLaw s' := by
  have hTakes : op.Takes s.shared := by
    rcases move_cases hm with ⟨i, t, t', started, ht, hs, -⟩ | ⟨started, hs, -⟩
    · exact hs.takes
    · cases hs <;> trivial
  have hLeaves : op.Leaves s.shared := by
    rcases move_cases hm with ⟨i, t, t', started, ht, hs, -⟩ | ⟨started, hs, -⟩
    · exact h.leaves ht hs
    · intro g hOut
      rw [(hs.enters g).1] at hOut
      cases hOut
  intro g
  have hExec : - (op.exec s.shared).inside g = - s.shared.inside g + - op.enters g := by
    rw [inside_exec g hTakes hLeaves]
    ring
  have hTotal : Machine.total (fun s => - s.inside g) (Task.inside g) s' =
      Machine.total (fun s => - s.inside g) (Task.inside g) s := by
    refine total_eq hm hExec (fun i t t' started ht hs => ?_) (fun started hs => ?_)
    · have hStep := hs.inside g
      omega
    · have hOut := hs.enters g
      omega
  have hOld := h g
  simp only [Machine.total] at hTotal
  omega

theorem guardLaw_init (vm : VmId → Vm) (donor : VmId → DonorState) :
    GuardLaw (initSystem vm donor) := by
  intro g
  cases g <;> rfl

/-- In every reachable state the locks and the threads agree. -/
theorem Reachable.guardLaw {s : System} (h : Reachable s) : GuardLaw s := by
  obtain ⟨vm, donor, -, hRun⟩ := h
  exact hRun.invariant (fun _ _ _ hInv hm _ => hInv.move hm) (guardLaw_init vm donor)

-- ---------------------------------------------------------------------------
-- Inside a section
-- ---------------------------------------------------------------------------

/-- The operations inside a section and the one that ends it: none of them
waits, and none talks to a VM. -/
def Op.inner : Op → Bool
  | .nop => true
  | .claimRelease _ _ _ _ => true
  | .unlockConsumer _ => true
  | .tryClaim _ _ => true
  | .bookDebt _ _ => true
  | .unlockDonor _ => true
  | .reserveFromRegion _ _ _ => true
  | .unreadVmList => true
  | _ => false

/-- The moves left in the section the call is in. -/
def ReleaseCall.span (r : ReleaseCall) : Nat :=
  match r.pc with
  | .claim todo _ => todo.length + 1
  | _ => 0

def ReturnCall.span (r : ReturnCall) : Nat :=
  match r.pc with
  | .release calls _ => (calls.map ReleaseCall.span).sum
  | _ => 0

def AllocCall.span (a : AllocCall) : Nat :=
  match a.pc with
  | .scan vms => vms.length + 1
  | _ => 0

def Task.span : Task → Nat
  | .request ⟨_, .allocate call _⟩ => call.span
  | .request ⟨_, .drop call _⟩ => call.span
  | .request ⟨_, .returnDead call _⟩ => call.span
  | .request ⟨_, .returnAll call⟩ => call.span
  | .revoke ⟨_, .select todo _ _⟩ => todo.length + 1
  | .revoke ⟨_, .giveBack call⟩ => call.span
  | .detection (.consumerReturn call _ _) => call.span
  | .detection (.donorCollect todo _ _ _) => todo.length + 1
  | .detection (.donorReturn call _ _) => call.span
  | _ => 0

/-- The moves left in all open sections. -/
def openMoves (s : System) : Nat := (s.tasks.map Task.span).sum

section

variable {s : Shared} {g : Guard}

/-- A call with no moves left in a section is in none. -/
theorem ReleaseCall.inside_of_span {r : ReleaseCall} (h : r.span = 0) : r.inside g = 0 := by
  obtain ⟨c, allocs, taken, pc⟩ := r
  cases pc <;> first | rfl | cases h

theorem ReturnCall.inside_of_span {r : ReturnCall} (h : r.span = 0) : r.inside g = 0 := by
  obtain ⟨allocs, pc⟩ := r
  cases pc with
  | release calls dons =>
    refine weigh_eq_zero fun r hr => ReleaseCall.inside_of_span ?_
    exact (List.sum_eq_zero_iff.mp h) _ (List.mem_map_of_mem hr)
  | _ => rfl

theorem AllocCall.inside_of_span {a : AllocCall} (h : a.span = 0) : a.inside g = 0 := by
  obtain ⟨backed, rest, last, pc⟩ := a
  cases pc <;> first | rfl | cases h

/-- A thread that has no moves left inside a section is outside all locks. -/
theorem Task.inside_of_span {t : Task} (h : t.span = 0) : t.inside g = 0 := by
  cases t with
  | events l => rfl
  | detection l =>
    cases l with
    | consumerReturn call v vms => exact ReturnCall.inside_of_span h
    | donorCollect todo allocs v vms => cases h
    | donorReturn call v vms => exact ReturnCall.inside_of_span h
    | _ => rfl
  | request q =>
    obtain ⟨c, pc⟩ := q
    cases pc with
    | allocate call rsvd => exact AllocCall.inside_of_span h
    | drop call rsvd => exact ReleaseCall.inside_of_span h
    | returnDead call live => exact ReturnCall.inside_of_span h
    | returnAll call => exact ReturnCall.inside_of_span h
    | _ => rfl
  | revoke v =>
    obtain ⟨d, pc⟩ := v
    cases pc with
    | select todo claimed remaining => cases h
    | giveBack call => exact ReturnCall.inside_of_span h
    | _ => rfl

/-- Who is inside a mutex does not walk the VM list. -/
theorem Task.not_walking {t : Task} (hMutex : g ≠ .vmList) (h : 0 < t.inside g)
    {c : VmId} {call : AllocCall} {rsvd : List AllocId} :
    t ≠ .request ⟨c, .allocate call rsvd⟩ := by
  rintro rfl
  have hZero : call.inside g = 0 := by
    unfold AllocCall.inside
    split
    · exact Guard.one_ne hMutex
    · rfl
  exact absurd h (by rw [Task.inside, hZero]; omega)

/-- Inside its section a call moves, whatever the environment does. -/
theorem ReleaseCall.inner_next {r : ReleaseCall} (tid : Tid) (s : Shared) (ch : Choice)
    (h : 0 < r.span) :
    ∃ op r', r.next tid s ch = some (op, r') ∧ op.inner = true ∧ r'.span < r.span := by
  obtain ⟨c, allocs, taken, pc⟩ := r
  cases pc with
  | claim todo toRelease =>
    cases todo with
    | nil =>
      refine ⟨_, _, rfl, rfl, ?_⟩
      show ReleaseCall.span ⟨c, allocs, taken, _⟩ < 0 + 1
      split <;> exact Nat.zero_lt_one
    | cons x todo => exact ⟨_, _, rfl, rfl, Nat.lt_succ_self _⟩
  | _ => cases h

/-- Inside a section the first call that is in one moves. -/
theorem ReturnCall.inner_next {r : ReturnCall} (tid : Tid) (s : Shared) (h : 0 < r.span) :
    ∃ ch op r', r.next tid s ch = some (op, r') ∧ op.inner = true ∧ r'.span < r.span := by
  obtain ⟨allocs, pc⟩ := r
  cases pc with
  | release calls dons =>
    obtain ⟨r, hr, hSpan⟩ := exists_of_sum_pos h
    obtain ⟨i, hi⟩ := List.getElem?_of_mem hr
    obtain ⟨op, r', hNext, hInner, hLt⟩ := ReleaseCall.inner_next tid s .go hSpan
    refine ⟨.sub i .go, op, ⟨allocs, .release (calls.set i r') dons⟩, ?_, hInner, ?_⟩
    · simp only [ReturnCall.next, stepNth, hi, hNext]
    · exact sum_set_lt hi hLt
  | _ => cases h

/-- The walk moves on once it need not wait for a donor's mutex. -/
theorem AllocCall.inner_next {a : AllocCall} (hFree : ∀ v, s.donorLock v = none)
    (h : 0 < a.span) :
    ∃ op a', a.next s .go = some (op, a') ∧ op.inner = true ∧ a'.span < a.span := by
  obtain ⟨backed, rest, last, pc⟩ := a
  cases pc with
  | scan vms =>
    cases vms with
    | nil => exact ⟨_, _, rfl, rfl, Nat.zero_lt_one⟩
    | cons v vms =>
      cases hr : (s.donor v).donatableRegions.find? DonatableRegion.hasRoom with
      | none =>
        refine ⟨.nop, ⟨backed, rest, last, .scan vms⟩, ?_, rfl, Nat.lt_succ_self _⟩
        simp only [AllocCall.next, hFree, if_true, hr]
      | some r =>
        have hFits := sizeToAllocate_div_le r rest.length
        generalize hSize : r.sizeToAllocate (granularity * rest.length) = size at hFits
        refine ⟨.reserveFromRegion ⟨v, r.path⟩ size (rest.take (size / granularity)),
          ⟨backed, rest, last, .donate ⟨v, r.path⟩ size⟩, ?_, rfl, Nat.zero_lt_succ _⟩
        simp only [AllocCall.next, hFree, if_true, hr, hSize, if_pos hFits]
  | _ => cases h

end

theorem ReleaseCall.isDone_of_span {r : ReleaseCall} (h : 0 < r.span) : r.isDone = false := by
  obtain ⟨c, allocs, taken, pc⟩ := r
  cases pc <;> first | rfl | cases h

theorem ReturnCall.isDone_of_span {r : ReturnCall} (h : 0 < r.span) : r.isDone = false := by
  obtain ⟨allocs, pc⟩ := r
  cases pc <;> first | rfl | cases h

theorem AllocCall.isDone_of_span {a : AllocCall} (h : 0 < a.span) : a.isDone = false := by
  obtain ⟨backed, rest, last, pc⟩ := a
  cases pc <;> first | rfl | cases h

/-- A thread inside a section moves: at once inside a mutex, and on its walk of
the VM list when the donors' mutexes are free. -/
theorem Task.inner_next {s : Shared} {t : Task} (i : Tid) (h : 0 < t.span)
    (hWalk : (∃ g, g ≠ .vmList ∧ 0 < t.inside g) ∨ ∀ v, s.donorLock v = none) :
    ∃ ch op t', t.next i s ch = some (op, t', []) ∧ op.inner = true ∧ t'.span < t.span := by
  cases t with
  | events l => cases h
  | detection l =>
    cases l with
    | consumerReturn call v vms =>
      obtain ⟨ch, op, call', hNext, hInner, hLt⟩ := ReturnCall.inner_next i s h
      refine ⟨ch, op, .detection (.consumerReturn call' v vms), ?_, hInner, hLt⟩
      simp only [Task.next, Detection.next, ReturnCall.isDone_of_span h, hNext,
        Bool.false_eq_true, if_false]
    | donorCollect todo allocs v vms =>
      cases todo with
      | nil => exact ⟨.go, _, _, rfl, rfl, Nat.zero_lt_succ _⟩
      | cons x todo => exact ⟨.go, _, _, rfl, rfl, Nat.lt_succ_self _⟩
    | donorReturn call v vms =>
      obtain ⟨ch, op, call', hNext, hInner, hLt⟩ := ReturnCall.inner_next i s h
      refine ⟨ch, op, .detection (.donorReturn call' v vms), ?_, hInner, hLt⟩
      simp only [Task.next, Detection.next, ReturnCall.isDone_of_span h, hNext,
        Bool.false_eq_true, if_false]
    | _ => cases h
  | request q =>
    obtain ⟨c, pc⟩ := q
    cases pc with
    | allocate call rsvd =>
      have hFree : ∀ v, s.donorLock v = none := by
        rcases hWalk with ⟨g, hMutex, hIn⟩ | hFree
        · exact absurd rfl (Task.not_walking hMutex hIn)
        · exact hFree
      obtain ⟨op, call', hNext, hInner, hLt⟩ := AllocCall.inner_next hFree h
      refine ⟨.go, op, .request ⟨c, .allocate call' rsvd⟩, ?_, hInner, hLt⟩
      simp only [Task.next, Request.next, AllocCall.isDone_of_span h, hNext,
        Bool.false_eq_true, if_false]
    | drop call rsvd =>
      obtain ⟨op, call', hNext, hInner, hLt⟩ := ReleaseCall.inner_next i s .go h
      refine ⟨.go, op, .request ⟨c, .drop call' rsvd⟩, ?_, hInner, hLt⟩
      simp only [Task.next, Request.next, ReleaseCall.isDone_of_span h, hNext,
        Bool.false_eq_true, if_false]
    | returnDead call live =>
      obtain ⟨ch, op, call', hNext, hInner, hLt⟩ := ReturnCall.inner_next i s h
      refine ⟨ch, op, .request ⟨c, .returnDead call' live⟩, ?_, hInner, hLt⟩
      simp only [Task.next, Request.next, ReturnCall.isDone_of_span h, hNext,
        Bool.false_eq_true, if_false]
    | returnAll call =>
      obtain ⟨ch, op, call', hNext, hInner, hLt⟩ := ReturnCall.inner_next i s h
      refine ⟨ch, op, .request ⟨c, .returnAll call'⟩, ?_, hInner, hLt⟩
      simp only [Task.next, Request.next, ReturnCall.isDone_of_span h, hNext,
        Bool.false_eq_true, if_false]
    | _ => cases h
  | revoke v =>
    obtain ⟨d, pc⟩ := v
    cases pc with
    | select todo claimed remaining =>
      cases todo with
      | nil => exact ⟨.go, _, _, rfl, rfl, Nat.zero_lt_succ _⟩
      | cons x todo =>
        by_cases hRem : remaining = 0
        · refine ⟨.go, .bookDebt d 0, .revoke ⟨d, .giveBack (.start claimed)⟩, ?_, rfl,
            Nat.zero_lt_succ _⟩
          simp only [Task.next, Revoke.next_select, if_pos hRem]
        · refine ⟨.go, .tryClaim d x, .revoke ⟨d, if (s.alloc x).tryClaimForRevoke.1 then
            .select todo (claimed ++ [x]) (remaining - granularity)
            else .select todo claimed remaining⟩, ?_, rfl, ?_⟩
          · simp only [Task.next, Revoke.next_select, if_neg hRem]
          · split <;> exact Nat.lt_succ_self _
    | giveBack call =>
      obtain ⟨ch, op, call', hNext, hInner, hLt⟩ := ReturnCall.inner_next i s h
      refine ⟨ch, op, .revoke ⟨d, .giveBack call'⟩, ?_, hInner, hLt⟩
      simp only [Task.next, Revoke.next, ReturnCall.isDone_of_span h, hNext,
        Bool.false_eq_true, if_false]
    | _ => cases h

-- ---------------------------------------------------------------------------
-- Every lock free
-- ---------------------------------------------------------------------------

/-- Nobody is inside any lock. -/
def Shared.Free (s : Shared) : Prop := ∀ g, s.inside g = 0

theorem Shared.Free.donor {s : Shared} (h : s.Free) (v : VmId) : s.donorLock v = none :=
  free_of_locked (h (.donor v))

theorem Shared.Free.consumer {s : Shared} (h : s.Free) (c : VmId) : s.consumerLock c = none :=
  free_of_locked (h (.consumer c))

theorem Shared.Free.vmList {s : Shared} (h : s.Free) : s.vmListReaders = 0 :=
  Int.natCast_eq_zero.mp (h .vmList)

/-- The thread has nothing to do: the event handler waits for an event, a
request or a revoke is over. The VM detection thread can always go on: it may
find that VMs are gone. -/
def Task.AtRest (s : Shared) : Task → Prop
  | .events l => l = .idle ∧ s.events = []
  | .detection _ => False
  | .request q => q.pc = .returned
  | .revoke v => v.pc = .done

section

variable {s : Shared} (i : Tid) (h : s.Free)

include h

/-- With the locks free, a return that has not ended moves: the environment's
answer is the choice. -/
theorem ReturnCall.free_next {r : ReturnCall} (hDone : r.isDone = false) :
    ∃ ch op r', r.next i s ch = some (op, r') := by
  obtain ⟨allocs, pc⟩ := r
  cases pc with
  | organize todo cons dons => cases todo <;> exact ⟨.go, _, _, rfl⟩
  | take x todo cons dons =>
    cases hTake : (s.alloc x).abandonOrTakeDonor.1 with
    | none =>
      refine ⟨.go, .abandon x, ⟨allocs, .organize todo cons dons⟩, ?_⟩
      simp only [ReturnCall.next, hTake]
    | some d =>
      refine ⟨.go, .abandon x, ⟨allocs, .check x d todo cons dons⟩, ?_⟩
      simp only [ReturnCall.next, hTake]
  | check x d todo cons dons => exact ⟨.go, _, _, rfl⟩
  | release calls dons =>
    by_cases hAll : ∀ c ∈ calls, c.pc = .done
    · have hDone : calls.all ReleaseCall.isDone = true :=
        List.all_eq_true.mpr fun c hc => decide_eq_true (hAll c hc)
      exact ⟨.go, _, _, if_pos hDone⟩
    · push Not at hAll
      obtain ⟨c, hc, hNot⟩ := hAll
      obtain ⟨k, hk⟩ := List.getElem?_of_mem hc
      obtain ⟨ch, op, c', hNext⟩ := ReleaseCall.moves i (fun _ => h.consumer c.consumer) hNot
      refine ⟨.sub k ch, op, ⟨allocs, .release (calls.set k c') dons⟩, ?_⟩
      simp only [ReturnCall.next, stepNth, hk, hNext]
  | giveBack calls =>
    by_cases hAll : ∀ g ∈ calls, g.pc = .done
    · have hDone : calls.all GiveBack.isDone = true :=
        List.all_eq_true.mpr fun g hg => decide_eq_true (hAll g hg)
      exact ⟨.go, _, _, if_pos hDone⟩
    · push Not at hAll
      obtain ⟨g, hg, hNot⟩ := hAll
      obtain ⟨k, hk⟩ := List.getElem?_of_mem hg
      obtain ⟨op, g', hNext, -⟩ := GiveBack.moves (h.donor g.donor.donorVm) hNot
      refine ⟨.sub k (.outcome true), op, ⟨allocs, .giveBack (calls.set k g')⟩, ?_⟩
      simp only [ReturnCall.next, stepNth, hk, hNext]
  | done => cases hDone

/-- With the locks free, a request moves until it has returned. -/
theorem Request.free_next {q : Request} (hPc : q.pc ≠ .returned) :
    ∃ ch op q', q.next i s ch = some (op, q') := by
  suffices ∃ ch, (q.next i s ch).isSome by
    obtain ⟨ch, hSome⟩ := this
    obtain ⟨p, hp⟩ := Option.isSome_iff_exists.mp hSome
    exact ⟨ch, p.1, p.2, hp⟩
  obtain ⟨c, pc⟩ := q
  cases pc with
  | start size =>
    refine ⟨.go, ?_⟩
    rw [Request.next_start]
    cases checkedNextMultipleOf size <;> rfl
  | reserve remaining rsvd =>
    refine ⟨.go, ?_⟩
    rw [Request.next_reserve, if_neg fun hBusy => hBusy.2 (h.consumer c)]
    split
    · rfl
    · split <;> rfl
  | allocate call rsvd =>
    cases hd : call.isDone with
    | true => exact ⟨.go, by simp only [next, hd, if_true, Option.isSome_some]⟩
    | false =>
      obtain ⟨op, call', ch, hNext⟩ := AllocCall.moves h.donor (of_decide_eq_false hd)
      exact ⟨ch, by simp only [next, hd, hNext, Bool.false_eq_true, if_false, Option.isSome_some]⟩
  | drop call rsvd =>
    cases hd : call.isDone with
    | true => exact ⟨.go, by simp only [next, hd, if_true, Option.isSome_some]⟩
    | false =>
      obtain ⟨ch, op, call', hNext⟩ :=
        ReleaseCall.moves i (fun _ => h.consumer call.consumer) (of_decide_eq_false hd)
      exact ⟨ch, by simp only [next, hd, hNext, Bool.false_eq_true, if_false, Option.isSome_some]⟩
  | retain todo kept => exact ⟨.go, by cases todo <;> rfl⟩
  | add rsvd => exact ⟨.outcome true, rfl⟩
  | wait rsvd => exact ⟨.timeout, rfl⟩
  | partition todo live dead => exact ⟨.go, by cases todo <;> rfl⟩
  | returnDead call live =>
    cases hd : call.isDone with
    | true => exact ⟨.go, by simp only [next, hd, if_true, Option.isSome_some]⟩
    | false =>
      obtain ⟨ch, op, call', hNext⟩ := ReturnCall.free_next i h hd
      exact ⟨ch, by simp only [next, hd, hNext, Bool.false_eq_true, if_false, Option.isSome_some]⟩
  | respond todo live => exact ⟨.outcome true, by cases todo <;> rfl⟩
  | returnAll call =>
    cases hd : call.isDone with
    | true => exact ⟨.go, by simp only [next, hd, if_true, Option.isSome_some]⟩
    | false =>
      obtain ⟨ch, op, call', hNext⟩ := ReturnCall.free_next i h hd
      exact ⟨ch, by simp only [next, hd, hNext, Bool.false_eq_true, if_false, Option.isSome_some]⟩
  | done ok => exact ⟨.go, rfl⟩
  | returned => exact absurd rfl hPc

/-- With the locks free, a revoke moves until it is done. -/
theorem Revoke.free_next {v : Revoke} (hPc : v.pc ≠ .done) :
    ∃ ch op v', v.next i s ch = some (op, v') := by
  suffices ∃ ch, (v.next i s ch).isSome by
    obtain ⟨ch, hSome⟩ := this
    obtain ⟨p, hp⟩ := Option.isSome_iff_exists.mp hSome
    exact ⟨ch, p.1, p.2, hp⟩
  obtain ⟨d, pc⟩ := v
  cases pc with
  | start size =>
    refine ⟨.go, ?_⟩
    rw [Revoke.next_start]
    cases checkedNextMultipleOf size with
    | none => rfl
    | some aligned =>
      simp only [h.donor, if_true]
      cases s.region? d <;> rfl
  | select todo claimed remaining =>
    refine ⟨.go, ?_⟩
    cases todo with
    | nil => rfl
    | cons x todo =>
      rw [Revoke.next_select]
      split <;> rfl
  | giveBack call =>
    cases hd : call.isDone with
    | true => exact ⟨.go, by simp only [next, hd, if_true, Option.isSome_some]⟩
    | false =>
      obtain ⟨ch, op, call', hNext⟩ := ReturnCall.free_next i h hd
      exact ⟨ch, by simp only [next, hd, hNext, Bool.false_eq_true, if_false, Option.isSome_some]⟩
  | done => exact absurd rfl hPc

/-- With the locks free, the event handler moves unless it waits for an event. -/
theorem EventLoop.free_next {l : EventLoop} (hBusy : l = .idle → s.events ≠ []) :
    ∃ ch p, l.next s ch = some p := by
  suffices ∃ ch, (l.next s ch).isSome by
    obtain ⟨ch, hSome⟩ := this
    exact ⟨ch, Option.isSome_iff_exists.mp hSome⟩
  cases l with
  | idle =>
    refine ⟨.go, ?_⟩
    cases hEvents : s.events with
    | nil => exact absurd hEvents (hBusy rfl)
    | cons e rest => simp only [next, hEvents, Option.isSome_some]
  | signalAdd c extents about =>
    exact ⟨.go, by simp only [next, h.consumer, if_true, Option.isSome_some]⟩
  | releaseGaps c extents => exact ⟨.outcome true, rfl⟩
  | signalRelease c extents about =>
    exact ⟨.go, by simp only [next, h.consumer, if_true, Option.isSome_some]⟩

/-- The detection always has something to do: at rest it polls. -/
theorem Detection.free_next (l : Detection) : ∃ ch op l', l.next i s ch = some (op, l') := by
  suffices ∃ ch, (l.next i s ch).isSome by
    obtain ⟨ch, hSome⟩ := this
    obtain ⟨p, hp⟩ := Option.isSome_iff_exists.mp hSome
    exact ⟨ch, p.1, p.2, hp⟩
  cases l with
  | idle => exact ⟨.remove [], by simp only [next, h.vmList, if_true, Option.isSome_some]⟩
  | removing vms => exact ⟨.go, by cases vms <;> rfl⟩
  | consumerLoop v vms =>
    refine ⟨.go, ?_⟩
    simp only [next, h.consumer, if_true]
    split <;> rfl
  | consumerReturn call v vms =>
    cases hd : call.isDone with
    | true => exact ⟨.go, by simp only [next, hd, if_true, Option.isSome_some]⟩
    | false =>
      obtain ⟨ch, op, call', hNext⟩ := ReturnCall.free_next i h hd
      exact ⟨ch, by simp only [next, hd, hNext, Bool.false_eq_true, if_false, Option.isSome_some]⟩
  | donorEnter v vms =>
    refine ⟨.go, ?_⟩
    simp only [next, h.donor, if_true]
    split <;> rfl
  | donorCollect todo allocs v vms => exact ⟨.go, by cases todo <;> rfl⟩
  | donorReturn call v vms =>
    cases hd : call.isDone with
    | true => exact ⟨.go, by simp only [next, hd, if_true, Option.isSome_some]⟩
    | false =>
      obtain ⟨ch, op, call', hNext⟩ := ReturnCall.free_next i h hd
      exact ⟨ch, by simp only [next, hd, hNext, Bool.false_eq_true, if_false, Option.isSome_some]⟩

/-- When all locks are free, every thread that is not at rest can move. -/
theorem Task.free_next {t : Task} (hBusy : ¬ t.AtRest s) :
    ∃ ch op t' started, t.next i s ch = some (op, t', started) := by
  cases t with
  | events l =>
    obtain ⟨ch, p, hNext⟩ := EventLoop.free_next h fun hl he => hBusy ⟨hl, he⟩
    exact ⟨ch, p.1, .events p.2.1, p.2.2.map .revoke, by simp only [next, hNext]⟩
  | detection l =>
    obtain ⟨ch, op, l', hNext⟩ := Detection.free_next i h l
    exact ⟨ch, op, .detection l', [], by simp only [next, hNext]⟩
  | request q =>
    obtain ⟨ch, op, q', hNext⟩ := Request.free_next i h hBusy
    exact ⟨ch, op, .request q', [], by simp only [next, hNext]⟩
  | revoke v =>
    obtain ⟨ch, op, v', hNext⟩ := Revoke.free_next i h hBusy
    exact ⟨ch, op, .revoke v', [], by simp only [next, hNext]⟩

end

-- ---------------------------------------------------------------------------
-- No deadlock
-- ---------------------------------------------------------------------------

/-- The threads of `s` that are outside all sections have not moved in `d`. -/
def StaysPut (s d : System) : Prop :=
  ∀ (i : Nat) (t : Task), s.tasks[i]? = some t → t.span = 0 → d.tasks[i]? = some t

/-- As long as a section is open, one of the threads inside can move on. -/
theorem GuardLaw.inner_move {s : System} (h : GuardLaw s) (hOpen : 0 < openMoves s) :
    ∃ (i : Nat) (t : Task) (ch : Choice) (op : Op) (t' : Task), s.tasks[i]? = some t ∧
      0 < t.span ∧ t.next i s.shared ch = some (op, t', []) ∧ op.inner = true ∧ t'.span < t.span := by
  by_cases hDonors : ∀ v, s.shared.donorLock v = none
  · obtain ⟨t, ht, hSpan⟩ := exists_of_sum_pos hOpen
    obtain ⟨i, hi⟩ := List.getElem?_of_mem ht
    obtain ⟨ch, op, t', hNext, hInner, hLt⟩ := Task.inner_next i hSpan (Or.inr hDonors)
    exact ⟨i, t, ch, op, t', hi, hSpan, hNext, hInner, hLt⟩
  · -- the thread inside a donor's mutex goes first
    push Not at hDonors
    obtain ⟨v, hTaken⟩ := hDonors
    have hIn : 0 < weigh (Task.inside (.donor v)) s.tasks := by
      rw [← h (.donor v)]
      show 0 < locked s.shared.donorLock v
      rw [locked_pos hTaken]
      exact Int.one_pos
    obtain ⟨t, ht, hInside⟩ := exists_of_weigh_pos hIn
    obtain ⟨i, hi⟩ := List.getElem?_of_mem ht
    have hSpan : 0 < t.span := by
      by_contra hZero
      rw [Task.inside_of_span (Nat.eq_zero_of_not_pos hZero)] at hInside
      exact Int.lt_irrefl 0 hInside
    obtain ⟨ch, op, t', hNext, hInner, hLt⟩ :=
      Task.inner_next i hSpan (Or.inl ⟨.donor v, Guard.noConfusion, hInside⟩)
    exact ⟨i, t, ch, op, t', hi, hSpan, hNext, hInner, hLt⟩

/-- Every move inside a section shortens it, so the open sections end after as
many moves as are left in them. -/
theorem GuardLaw.drains {s : System} (h : GuardLaw s) :
    ∃ ls s', orchestrator.runIf (fun _ op => op.inner) s ls = some s' ∧ ls.length ≤ openMoves s ∧
      (GuardLaw s' ∧ StaysPut s s') ∧ openMoves s' = 0 := by
  refine Machine.drains (I := fun d => GuardLaw d ∧ StaysPut s d) (m := openMoves) ?_
    ⟨h, fun _ _ ht _ => ht⟩
  rintro d ⟨hLaw, hStays⟩ hOpen
  obtain ⟨i, t, ch, op, t', ht, hSpan, hNext, hInner, hLt⟩ := hLaw.inner_move hOpen
  have hMove : orchestrator.Move d op ⟨op.exec d.shared, d.tasks.set i t' ++ []⟩ :=
    .task ht hNext
  refine ⟨.task i ch, op, _, opOf_of_next ht hNext, hInner, fire_of_next ht hNext,
    ⟨hLaw.move hMove, ?_⟩, ?_⟩
  · intro j u hu hZero
    have hj := hStays j u hu hZero
    have hne : i ≠ j := by
      rintro rfl
      rw [Option.some.inj (ht.symm.trans hj), hZero] at hSpan
      exact Nat.lt_irrefl 0 hSpan
    exact getElem?_set_append_ne hne hj
  · show ((d.tasks.set i t' ++ []).map Task.span).sum < _
    rw [List.append_nil]
    exact sum_set_lt ht hLt

/-- **No deadlock.** In every reachable state at most one section is inside a
mutex, and whatever QEMU and the guests do, the threads inside the open
sections alone get out of them: at most `openMoves s` moves, none of which waits or
talks to a VM, lead to a state in which all locks are free. The threads that
were outside have not moved meanwhile, and every thread that is not at rest can
go on from there. -/
theorem deadlock_free {s : System} (h : Reachable s) :
    (∀ g, g ≠ Guard.vmList → weigh (Task.inside g) s.tasks ≤ 1) ∧
    ∃ ls s', orchestrator.runIf (fun _ op => op.inner) s ls = some s' ∧ ls.length ≤ openMoves s ∧
      StaysPut s s' ∧ s'.shared.Free ∧
      ∀ (i : Nat) (t : Task), s'.tasks[i]? = some t → ¬ t.AtRest s'.shared →
        ∃ ch s'', orchestrator.fire s' (.task i ch) = some s'' := by
  have hLaw := h.guardLaw
  refine ⟨fun g hMutex => ?_, ?_⟩
  · rw [← hLaw g]
    cases g with
    | donor v => exact locked_le_one _ _
    | consumer c => exact locked_le_one _ _
    | vmList => exact absurd rfl hMutex
  · obtain ⟨ls, s', hRun, hLen, ⟨hLaw', hStays⟩, hDone⟩ := hLaw.drains
    have hFree : s'.shared.Free := by
      intro g
      rw [hLaw' g]
      refine weigh_eq_zero fun t ht => Task.inside_of_span ?_
      exact (List.sum_eq_zero_iff.mp hDone) _ (List.mem_map_of_mem ht)
    refine ⟨ls, s', hRun, hLen, hStays, hFree, fun i t ht hBusy => ?_⟩
    obtain ⟨ch, op, t', started, hNext⟩ := Task.free_next i hFree hBusy
    exact ⟨ch, _, fire_of_next ht hNext⟩

/-- A request walks the VM list while a revoke selects in VM 0: the walk waits
for VM 0's mutex, and no VM can come or go meanwhile. -/
def demoLocked : List (Label Op Choice) :=
  [.task 1 (.register 0), .task 1 (.register 1), .outside (.startRequest 1 granularity),
    .task 2 .go, .task 2 .go, .task 2 .go, .task 2 .go,
    .outside (.emitRevoke 0 7 granularity), .task 0 .go, .task 3 .go]

theorem demoLocked_runs : (orchestrator.run demo demoLocked).isSome = true := by decide +kernel

theorem deadlock_free_locked :
    ((demoAfter demoLocked).shared.inside (.donor 0) = 1 ∧
      (demoAfter demoLocked).shared.inside .vmList = 1) ∧
    ∃ ls s', orchestrator.runIf (fun _ op => op.inner) (demoAfter demoLocked) ls = some s' ∧
      ls.length ≤ openMoves (demoAfter demoLocked) ∧ s'.shared.Free := by
  obtain ⟨-, ls, s', hRun, hLen, -, hFree, -⟩ := deadlock_free (demo_reachable demoLocked_runs)
  exact ⟨by decide +kernel, ls, s', hRun, hLen, hFree⟩

end EphMemory.Orchestrator
