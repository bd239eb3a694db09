import EphMemory.Orchestrator.Ops

/-!
# Orchestrator — threads

The control flow of the orchestrator's threads. A thread is a program counter
with its local variables; `next` reads the shared state, names the operation
of `Ops.lean` the thread performs and gives the thread after it. A call is a
nested program counter, and the calls `for_each_parallel` runs are a list of
them, any of which may move.

* `ReleaseCall` — `ConsumerState::release_reserved_memory`;
* `GiveBack` — `DonorState::return_and_bookkeep_eph_memory`;
* `ReturnCall` — `Vm::return_eph_memory_from_consumer`;
* `AllocCall` — `DonorState::allocate_eph_memory`;
* `Request` — `ConsumerState::handle_eph_mem_request`;
* `Revoke` — `DonorState::revoke_eph_memory`;
* `EventLoop` — `qmp_event_handler_thread`;
* `Detection` — `vm_detection_thread` with `Vm::remove_vms`.

A list of offsets handed to `release_reserved_memory` is kept as the list of
the allocations it was read from; only their offsets are looked up.
-/

namespace EphMemory.Orchestrator

open EphMemory.Lib

/-- What the environment decides at a step: nothing, how a QMP command or a
vsock message ends, what a donor grants, that a wait times out, which of the
parallel calls moves, what the VM detection thread sees. -/
inductive Choice where
  | go
  | outcome (ok : Bool)
  | granted (size : Option Nat)
  | timeout
  | sub (i : Nat) (ch : Choice)
  | register (v : VmId)
  | remove (paths : List SocketPath)
  deriving DecidableEq, Repr

/-- Let the `i`-th of several parallel calls move. -/
def stepNth {α : Type} (f : α → Option (Op × α)) (i : Nat) (calls : List α) :
    Option (Op × List α) :=
  match calls[i]? with
  | none => none
  | some a =>
    match f a with
    | none => none
    | some (op, a') => some (op, calls.set i a')

/-- `entry(key).or_default().push(x)`. The groups are worked on in parallel,
so their order does not matter. -/
def pushGroup {κ α : Type} [DecidableEq κ] (key : κ) (x : α) :
    List (κ × List α) → List (κ × List α)
  | [] => [(key, [x])]
  | (k, xs) :: rest => if k = key then (k, xs ++ [x]) :: rest else (k, xs) :: pushGroup key x rest

-- ---------------------------------------------------------------------------
-- ConsumerState::release_reserved_memory
-- ---------------------------------------------------------------------------

inductive ReleasePc where
  | enter
  | claim (todo toRelease : List AllocId)
  | send (toRelease : List AllocId)
  | wait (toRelease : List AllocId)
  | manual (toRelease : List AllocId)
  | done
  deriving DecidableEq, Repr

/-- A call of `release_reserved_memory`. `allocs` are the allocations whose
offsets it was given, `taken` those of them whose donor its caller took. -/
structure ReleaseCall where
  consumer : VmId
  allocs : List AllocId
  taken : List AllocId
  pc : ReleasePc
  deriving DecidableEq, Repr

namespace ReleaseCall

def next (tid : Tid) (s : Shared) (r : ReleaseCall) (ch : Choice) : Option (Op × ReleaseCall) :=
  match r.pc with
  | .enter =>
    if s.consumerLock r.consumer = none then
      some (.lockConsumer r.consumer tid, { r with pc := .claim r.allocs [] })
    else none
  | .claim [] toRelease =>
    some (.unlockConsumer r.consumer,
      { r with pc := if toRelease = [] then .done else .send toRelease })
  | .claim (x :: todo) toRelease =>
    some (.claimRelease r.consumer x r.allocs (decide (x ∈ r.taken)),
      { r with pc := .claim todo (toRelease ++ (s.claimAt r.consumer x).toRelease) })
  | .send toRelease =>
    match ch with
    | .outcome ok =>
      some (.cxlReleaseDynamicCapacity r.consumer r.allocs toRelease ok,
        { r with pc := if ok then .wait toRelease else .manual toRelease })
    | _ => none
  | .wait toRelease =>
    if s.consumerLock r.consumer = none then
      -- wait_timeout_while looks at its condition before it gives up
      if toRelease.any fun x => (s.allocatedAreas r.consumer).contains (s.offsetOf x) then
        match ch with
        | .timeout =>
          some (.releaseTimedOut r.consumer toRelease, { r with pc := .manual toRelease })
        | _ => none
      else some (.nop, { r with pc := .done })
    else none
  | .manual toRelease =>
    if s.consumerLock r.consumer = none then
      some (.removeAreas r.consumer r.allocs toRelease, { r with pc := .done })
    else none
  | .done => none

def isDone (r : ReleaseCall) : Bool := r.pc = .done

end ReleaseCall

-- ---------------------------------------------------------------------------
-- DonorState::return_and_bookkeep_eph_memory
-- ---------------------------------------------------------------------------

inductive GiveBackPc where
  | send
  | book (todo : List AllocId)
  | done
  deriving DecidableEq, Repr

structure GiveBack where
  donor : DonorAllocation
  ids : List AllocId
  pc : GiveBackPc
  deriving DecidableEq, Repr

namespace GiveBack

def next (s : Shared) (g : GiveBack) (ch : Choice) : Option (Op × GiveBack) :=
  match g.pc with
  | .send =>
    match ch with
    | .outcome ok =>
      some (.ephMemReturnCapacity g.donor (g.ids.length * granularity) g.ids ok,
        { g with pc := if ok then .book g.ids else .done })
    | _ => none
  | .book [] => some (.nop, { g with pc := .done })
  | .book (x :: todo) =>
    if s.donorLock g.donor.donorVm = none then
      some (.bookkeep g.donor x, { g with pc := .book todo })
    else none
  | .done => none

def isDone (g : GiveBack) : Bool := g.pc = .done

end GiveBack

-- ---------------------------------------------------------------------------
-- Vm::return_eph_memory_from_consumer
-- ---------------------------------------------------------------------------

inductive ReturnPc where
  | organize (todo : List AllocId) (consumerAllocs : List (VmId × List AllocId))
      (donorAllocs : List (DonorAllocation × List AllocId))
  /-- About to call `abandon_or_take_donor`. -/
  | take (x : AllocId) (todo : List AllocId) (consumerAllocs : List (VmId × List AllocId))
      (donorAllocs : List (DonorAllocation × List AllocId))
  /-- About to look at the donor's `exited`. -/
  | check (x : AllocId) (d : DonorAllocation) (todo : List AllocId)
      (consumerAllocs : List (VmId × List AllocId))
      (donorAllocs : List (DonorAllocation × List AllocId))
  | release (calls : List ReleaseCall) (donorAllocs : List (DonorAllocation × List AllocId))
  | giveBack (calls : List GiveBack)
  | done
  deriving DecidableEq, Repr

structure ReturnCall where
  allocs : List AllocId
  pc : ReturnPc
  deriving DecidableEq, Repr

namespace ReturnCall

def start (allocs : List AllocId) : ReturnCall := ⟨allocs, .organize allocs [] []⟩

def next (tid : Tid) (s : Shared) (r : ReturnCall) (ch : Choice) : Option (Op × ReturnCall) :=
  match r.pc with
  | .organize (x :: todo) consumerAllocs donorAllocs =>
    let consumer := (s.alloc x).consumerVm
    some (.nop, ⟨r.allocs, .take x todo
      (if s.exited consumer then consumerAllocs else pushGroup consumer x consumerAllocs)
      donorAllocs⟩)
  | .organize [] consumerAllocs donorAllocs =>
    some (.nop, ⟨r.allocs, .release
      (consumerAllocs.map fun g => ⟨g.1, g.2, donorAllocs.flatMap Prod.snd, .enter⟩)
      donorAllocs⟩)
  | .take x todo consumerAllocs donorAllocs =>
    match (s.alloc x).abandonOrTakeDonor.1 with
    | none => some (.abandon x, ⟨r.allocs, .organize todo consumerAllocs donorAllocs⟩)
    | some d => some (.abandon x, ⟨r.allocs, .check x d todo consumerAllocs donorAllocs⟩)
  | .check x d todo consumerAllocs donorAllocs =>
    some (.nop, ⟨r.allocs, .organize todo consumerAllocs
      (if s.exited d.donorVm then donorAllocs else pushGroup d x donorAllocs)⟩)
  | .release calls donorAllocs =>
    match ch with
    | .sub i ch =>
      match stepNth (fun c => c.next tid s ch) i calls with
      | none => none
      | some (op, calls') => some (op, { r with pc := .release calls' donorAllocs })
    | .go =>
      if calls.all ReleaseCall.isDone then
        some (.nop, { r with pc := .giveBack (donorAllocs.map fun g => ⟨g.1, g.2, .send⟩) })
      else none
    | _ => none
  | .giveBack calls =>
    match ch with
    | .sub i ch =>
      match stepNth (fun g => g.next s ch) i calls with
      | none => none
      | some (op, calls') => some (op, { r with pc := .giveBack calls' })
    | .go => if calls.all GiveBack.isDone then some (.nop, { r with pc := .done }) else none
    | _ => none
  | .done => none

def isDone (r : ReturnCall) : Bool := r.pc = .done

end ReturnCall

-- ---------------------------------------------------------------------------
-- DonorState::allocate_eph_memory
-- ---------------------------------------------------------------------------

inductive AllocPc where
  | loop
  /-- `allocate_eph_memory_inner`, with the donors still to look at. -/
  | scan (vms : List VmId)
  | donate (d : DonorAllocation) (requestSize : Nat)
  | confirm (d : DonorAllocation) (requestSize : Nat) (granted : Option Nat)
  | handBack (d : DonorAllocation) (numGranted toRevoke : Nat)
  /-- `numGranted` allocations are left to commit. -/
  | commit (d : DonorAllocation) (numGranted : Nat) (abandoned : List AllocId)
  /-- `commit_allocation` of `x` has set `donor_info`. -/
  | commitState (d : DonorAllocation) (x : AllocId) (numGranted : Nat) (abandoned : List AllocId)
  | giveBack (g : GiveBack)
  | done
  deriving DecidableEq, Repr

/-- A call of `allocate_eph_memory`: `backed` is `rsvd_allocs[..backed_allocs]`
and `rest` the remainder. -/
structure AllocCall where
  backed : List AllocId
  rest : List AllocId
  lastPath : Option SocketPath
  pc : AllocPc
  deriving DecidableEq, Repr

namespace AllocCall

def start (rsvdAllocs : List AllocId) : AllocCall := ⟨[], rsvdAllocs, none, .loop⟩

/-- The VMs after `lastPath`, in path order. -/
def candidates (s : Shared) (lastPath : Option SocketPath) : List VmId :=
  (s.vmList.entries.filter fun e =>
    match lastPath with
    | none => true
    | some p => decide (p < e.1)).map Prod.snd

def next (s : Shared) (a : AllocCall) (ch : Choice) : Option (Op × AllocCall) :=
  match a.pc with
  | .loop =>
    if a.rest = [] then some (.nop, { a with pc := .done })
    else some (.readVmList, { a with pc := .scan (candidates s a.lastPath) })
  | .scan [] => some (.unreadVmList, { a with pc := .done })
  | .scan (v :: vms) =>
    if s.donorLock v = none then
      match (s.donor v).donatableRegions.find? DonatableRegion.hasRoom with
      | none => some (.nop, { a with pc := .scan vms })
      | some r =>
        let size := r.sizeToAllocate (granularity * a.rest.length)
        if size / granularity ≤ a.rest.length then
          some (.reserveFromRegion ⟨v, r.path⟩ size (a.rest.take (size / granularity)),
            { a with pc := .donate ⟨v, r.path⟩ size })
        else some (.panic .sliceIndex, { a with pc := .done })
    else none
  | .donate d requestSize =>
    match ch with
    | .granted size =>
      some (.ephMemDonateCapacity d requestSize size, { a with pc := .confirm d requestSize size })
    | _ => none
  | .confirm d requestSize granted =>
    let ids := a.rest.take (requestSize / granularity)
    if s.donorLock d.donorVm = none then
      match granted with
      | none =>
        some (.handleReservedAlloc d ids requestSize 0,
          { a with lastPath := some (s.vm d.donorVm).qmpSocketPath, pc := .loop })
      | some size =>
        match s.region? d with
        | none => some (.handleReservedAlloc d ids requestSize size, { a with pc := .commit d 0 [] })
        | some r =>
          let finalSize := (r.handleReservedAlloc ids requestSize size).2.1
          let toRevoke := (r.handleReservedAlloc ids requestSize size).2.2
          if finalSize / granularity ≤ ids.length then
            some (.handleReservedAlloc d ids requestSize size,
              { a with pc := if toRevoke > 0 then .handBack d (finalSize / granularity) toRevoke
                  else .commit d (finalSize / granularity) [] })
          else some (.panic .sliceIndex, { a with pc := .done })
    else none
  | .handBack d numGranted toRevoke =>
    match ch with
    | .outcome ok =>
      some (.ephMemReturnCapacity d toRevoke [] ok, { a with pc := .commit d numGranted [] })
    | _ => none
  | .commit d 0 abandoned =>
    if abandoned = [] then
      some (.nop, { a with lastPath := some (s.vm d.donorVm).qmpSocketPath, pc := .loop })
    else some (.nop, { a with pc := .giveBack ⟨d, abandoned, .send⟩ })
  | .commit d (numGranted + 1) abandoned =>
    match a.rest with
    | [] => some (.panic .sliceIndex, { a with pc := .done })
    | x :: rest =>
      if (s.alloc x).donorInfo = none then
        some (.setDonorInfo x d,
          { a with rest := rest, pc := .commitState d x numGranted abandoned })
      else some (.panic .donorInfoSetTwice, { a with pc := .done })
  | .commitState d x numGranted abandoned =>
    match (s.alloc x).commitState with
    | none => some (.commitState x, { a with pc := .done })
    | some (live, _) =>
      some (.commitState x,
        { a with
          backed := a.backed ++ [x]
          pc := .commit d numGranted (if live then abandoned else abandoned ++ [x]) })
  | .giveBack g =>
    if g.isDone then some (.nop, { a with pc := .done })
    else
      match g.next s ch with
      | none => none
      | some (op, g') => some (op, { a with pc := .giveBack g' })
  | .done => none

def isDone (a : AllocCall) : Bool := a.pc = .done

end AllocCall

-- ---------------------------------------------------------------------------
-- ConsumerState::handle_eph_mem_request
-- ---------------------------------------------------------------------------

inductive RequestPc where
  | start (size : Nat)
  | reserve (remaining : Nat) (rsvd : List AllocId)
  | allocate (call : AllocCall) (rsvd : List AllocId)
  /-- Releasing what was not backed. -/
  | drop (call : ReleaseCall) (rsvd : List AllocId)
  | retain (todo kept : List AllocId)
  | add (rsvd : List AllocId)
  | wait (rsvd : List AllocId)
  | partition (todo live dead : List AllocId)
  | returnDead (call : ReturnCall) (live : List AllocId)
  | respond (todo live : List AllocId)
  /-- An error exit after the donors were asked. -/
  | returnAll (call : ReturnCall)
  /-- About to return, with or without an error. -/
  | done (ok : Bool)
  | returned
  deriving DecidableEq, Repr

structure Request where
  consumer : VmId
  pc : RequestPc
  deriving DecidableEq, Repr

namespace Request

/-- What follows the partition into live and dead allocations. -/
def afterDead (live : List AllocId) : RequestPc :=
  if live = [] then .done false else .respond live live

def next (tid : Tid) (s : Shared) (q : Request) (ch : Choice) : Option (Op × Request) :=
  match q.pc with
  | .start size =>
    match checkedNextMultipleOf size with
    | none => some (.nop, { q with pc := .done false })
    | some size => some (.nop, { q with pc := .reserve size [] })
  | .reserve remaining rsvd =>
    if remaining > 0 ∧ s.consumerLock q.consumer ≠ none then none
    else if remaining > 0 ∧ s.newOffsets q.consumer remaining ≠ [] then
      some (.reserveMemoryContig q.consumer remaining,
        ⟨q.consumer, .reserve
          (remaining - (s.newOffsets q.consumer remaining).length * granularity)
          (rsvd ++ s.newIds q.consumer remaining)⟩)
    else if rsvd = [] then some (.nop, { q with pc := .done false })
    else some (.nop, { q with pc := .allocate (.start rsvd) rsvd })
  | .allocate call rsvd =>
    if call.isDone then
      some (.nop, { q with pc := .drop ⟨q.consumer, call.rest, [], .enter⟩ rsvd })
    else
      match call.next s ch with
      | none => none
      | some (op, call') => some (op, { q with pc := .allocate call' rsvd })
  | .drop call rsvd =>
    if call.isDone then some (.nop, { q with pc := .retain rsvd [] })
    else
      match call.next tid s ch with
      | none => none
      | some (op, call') => some (op, { q with pc := .drop call' rsvd })
  | .retain (x :: todo) kept =>
    some (.nop, ⟨q.consumer, .retain todo
      (if (s.alloc x).isCommitted && !(s.alloc x).isReleaseRequested then kept ++ [x]
        else kept)⟩)
  | .retain [] kept =>
    some (.nop, { q with pc := if kept = [] then .done false else .add kept })
  | .add rsvd =>
    match ch with
    | .outcome ok =>
      some (.cxlAddDynamicCapacity q.consumer rsvd ok,
        { q with pc := if ok then .wait rsvd else .returnAll (.start rsvd) })
    | _ => none
  | .wait rsvd =>
    match ch with
    | .timeout => some (.nop, { q with pc := .partition rsvd [] [] })
    | .go =>
      if s.consumerLock q.consumer = none ∧
          ∀ x ∈ rsvd, (s.alloc x).dcdSet ∨ (s.alloc x).releaseRequested then
        some (.nop, { q with pc := .partition rsvd [] [] })
      else none
    | _ => none
  | .partition (x :: todo) live dead =>
    some (.nop, ⟨q.consumer,
      if (s.alloc x).isLive then .partition todo (live ++ [x]) dead
      else .partition todo live (dead ++ [x])⟩)
  | .partition [] live dead =>
    some (.nop, ⟨q.consumer,
      if dead = [] then afterDead live else .returnDead (.start dead) live⟩)
  | .returnDead call live =>
    if call.isDone then some (.nop, { q with pc := afterDead live })
    else
      match call.next tid s ch with
      | none => none
      | some (op, call') => some (op, { q with pc := .returnDead call' live })
  | .respond [] _ => some (.nop, { q with pc := .done true })
  | .respond (x :: todo) live =>
    match ch with
    | .outcome true => some (.ephMemResponse q.consumer x, { q with pc := .respond todo live })
    | .outcome false => some (.nop, { q with pc := .returnAll (.start live) })
    | _ => none
  | .returnAll call =>
    if call.isDone then some (.nop, { q with pc := .done false })
    else
      match call.next tid s ch with
      | none => none
      | some (op, call') => some (op, { q with pc := .returnAll call' })
  | .done _ => some (.requestDone q.consumer, { q with pc := .returned })
  | .returned => none

end Request

-- ---------------------------------------------------------------------------
-- DonorState::revoke_eph_memory
-- ---------------------------------------------------------------------------

inductive RevokePc where
  | start (size : Nat)
  | select (todo claimed : List AllocId) (remaining : Nat)
  | giveBack (call : ReturnCall)
  | done
  deriving DecidableEq, Repr

structure Revoke where
  donor : DonorAllocation
  pc : RevokePc
  deriving DecidableEq, Repr

namespace Revoke

def next (tid : Tid) (s : Shared) (v : Revoke) (ch : Choice) : Option (Op × Revoke) :=
  match v.pc with
  | .start size =>
    match checkedNextMultipleOf size with
    | none => some (.nop, { v with pc := .done })
    | some size =>
      if s.donorLock v.donor.donorVm = none then
        match s.region? v.donor with
        | none => some (.nop, { v with pc := .done })
        | some r =>
          some (.beginRevoke v.donor size tid,
            { v with pc := .select r.allocations.values.reverse [] size })
      else none
  | .select [] claimed remaining =>
    some (.bookDebt v.donor remaining, { v with pc := .giveBack (.start claimed) })
  | .select (x :: todo) claimed remaining =>
    if remaining = 0 then
      some (.bookDebt v.donor 0, { v with pc := .giveBack (.start claimed) })
    else
      some (.tryClaim v.donor x, ⟨v.donor,
        if (s.alloc x).tryClaimForRevoke.1 then
          .select todo (claimed ++ [x]) (remaining - granularity)
        else .select todo claimed remaining⟩)
  | .giveBack call =>
    if call.isDone then some (.nop, { v with pc := .done })
    else
      match call.next tid s ch with
      | none => none
      | some (op, call') => some (op, { v with pc := .giveBack call' })
  | .done => none

end Revoke

-- ---------------------------------------------------------------------------
-- The event handler thread
-- ---------------------------------------------------------------------------

/-- `Vm::get_consumer`. -/
def Shared.getConsumer (s : Shared) (path : SocketPath) : Option VmId :=
  match s.vmList.get? path with
  | none => none
  | some v => if (s.vm v).consumerSize.isSome then some v else none

/-- `Vm::get_donor`. -/
def Shared.getDonor (s : Shared) (path : SocketPath) : Option VmId :=
  match s.vmList.get? path with
  | none => none
  | some v => if (s.donor v).donatableRegions = [] then none else some v

inductive EventLoop where
  | idle
  | signalAdd (c : VmId) (extents : List Extent) (about : List AllocId)
  | releaseGaps (c : VmId) (extents : List Extent)
  | signalRelease (c : VmId) (extents : List Extent) (about : List AllocId)
  deriving DecidableEq, Repr

namespace EventLoop

/-- `handle_event` on the next event: the handler after it and the revoke
thread it spawns. -/
def dispatch (s : Shared) (e : QmpEvent) : EventLoop × List Revoke :=
  match e.data with
  | .cxlAddDynamicCapacityResponse extents about =>
    match s.getConsumer e.vmPath with
    | none => (.idle, [])
    | some c => (.signalAdd c extents about, [])
  | .cxlReleaseDynamicCapacity extents about =>
    match s.getConsumer e.vmPath with
    | none => (.idle, [])
    | some c => (.signalRelease c extents about, [])
  | .ephMemRevoke path size =>
    match s.getDonor e.vmPath with
    | none => (.idle, [])
    | some v => (.idle, [⟨⟨v, path⟩, .start size⟩])

def next (s : Shared) (l : EventLoop) (ch : Choice) : Option (Op × EventLoop × List Revoke) :=
  match l with
  | .idle =>
    match s.events with
    | [] => none
    | e :: _ => some (.nextEvent, dispatch s e)
  | .signalAdd c extents about =>
    if s.consumerLock c = none then
      let gaps := (Orchestrator.signalAddDc s.offsetOf (s.allocatedAreas c) extents).2
      some (.signalAddDc c extents about, if gaps = [] then .idle else .releaseGaps c gaps, [])
    else none
  | .releaseGaps c extents =>
    match ch with
    | .outcome ok => some (.releaseGaps c extents ok, .idle, [])
    | _ => none
  | .signalRelease c extents about =>
    if s.consumerLock c = none then some (.signalReleaseDc c extents about, .idle, []) else none

end EventLoop

-- ---------------------------------------------------------------------------
-- The VM detection thread and Vm::remove_vms
-- ---------------------------------------------------------------------------

inductive Detection where
  | idle
  | removing (vms : List VmId)
  /-- The loop of `ConsumerState::release_all_allocations`. -/
  | consumerLoop (v : VmId) (vms : List VmId)
  | consumerReturn (call : ReturnCall) (v : VmId) (vms : List VmId)
  /-- `DonorState::release_all_allocations`. -/
  | donorEnter (v : VmId) (vms : List VmId)
  | donorCollect (todo allocs : List AllocId) (v : VmId) (vms : List VmId)
  | donorReturn (call : ReturnCall) (v : VmId) (vms : List VmId)
  deriving DecidableEq, Repr

namespace Detection

/-- The list one round of the consumer's loop collects. -/
def unrequested (s : Shared) (v : VmId) : List AllocId :=
  (s.allocatedAreas v).values.filter fun x => !(s.alloc x).isReleaseRequested

def next (tid : Tid) (s : Shared) (l : Detection) (ch : Choice) : Option (Op × Detection) :=
  match l with
  | .idle =>
    if s.vmListReaders = 0 then
      match ch with
      | .register v =>
        if s.vmList.contains (s.vm v).qmpSocketPath ∨ v ∈ s.registered then none
        else some (.register v, .idle)
      | .remove paths =>
        some (.unregister paths, .removing (paths.eraseDups.filterMap s.vmList.get?))
      | _ => none
    else none
  | .removing [] => some (.nop, .idle)
  | .removing (v :: vms) =>
    some (.setExited v,
      if (s.vm v).consumerSize.isSome then .consumerLoop v vms else .donorEnter v vms)
  | .consumerLoop v vms =>
    if s.consumerLock v = none then
      if unrequested s v = [] then some (.nop, .donorEnter v vms)
      else some (.nop, .consumerReturn (.start (unrequested s v)) v vms)
    else none
  | .consumerReturn call v vms =>
    if call.isDone then some (.nop, .consumerLoop v vms)
    else
      match call.next tid s ch with
      | none => none
      | some (op, call') => some (op, .consumerReturn call' v vms)
  | .donorEnter v vms =>
    if (s.donor v).donatableRegions = [] then some (.removalFinished v, .removing vms)
    else if s.donorLock v = none then
      some (.beginSnapshot v tid, .donorCollect
        ((s.donor v).donatableRegions.flatMap fun r => r.allocations.values) [] v vms)
    else none
  | .donorCollect (x :: todo) allocs v vms =>
    some (.nop, .donorCollect todo (if (s.alloc x).isCommitted then allocs ++ [x] else allocs)
      v vms)
  | .donorCollect [] allocs v vms => some (.unlockDonor v, .donorReturn (.start allocs) v vms)
  | .donorReturn call v vms =>
    if call.isDone then some (.removalFinished v, .removing vms)
    else
      match call.next tid s ch with
      | none => none
      | some (op, call') => some (op, .donorReturn call' v vms)

end Detection

-- ---------------------------------------------------------------------------
-- The system
-- ---------------------------------------------------------------------------

inductive Task where
  | events (l : EventLoop)
  | detection (l : Detection)
  | request (q : Request)
  | revoke (v : Revoke)
  deriving DecidableEq, Repr

def Task.next (tid : Tid) (s : Shared) (t : Task) (ch : Choice) :
    Option (Op × Task × List Task) :=
  match t with
  | .events l =>
    match l.next s ch with
    | none => none
    | some (op, l', spawned) => some (op, .events l', spawned.map .revoke)
  | .detection l =>
    match l.next tid s ch with
    | none => none
    | some (op, l') => some (op, .detection l', [])
  | .request q =>
    match q.next tid s ch with
    | none => none
    | some (op, q') => some (op, .request q', [])
  | .revoke v =>
    match v.next tid s ch with
    | none => none
    | some (op, v') => some (op, .revoke v', [])

/-- What happens outside the orchestrator: an idle consumer thread reads a
request, QEMU acknowledges an add it accepted, releases extents it holds
(asked to or not) and reports it, a donor asks for its memory back. -/
def outside (s : Shared) : Op → Option (List Task)
  | .startRequest c size =>
    if (s.vm c).consumerSize.isSome ∧ c ∈ s.registered ∧ s.serving c = false then
      some [.request ⟨c, .start size⟩]
    else none
  | .emitAdd c _ about => if ∀ x ∈ about, x ∈ (s.device c).unacked then some [] else none
  | .emitRelease c _ about => if ∀ x ∈ about, x ∈ (s.device c).dcd then some [] else none
  | .emitRevoke _ _ _ => some []
  | _ => none

abbrev System := Config Shared Task

/-- The orchestrator with the VMs around it. -/
def orchestrator : Machine Shared Task Op Choice where
  next := Task.next
  exec := Op.exec
  outside := outside

/-- The orchestrator at its start, in front of a given set of VMs. -/
def initShared (vm : VmId → Vm) (donor : VmId → DonorState) : Shared where
  alloc := fun _ => .new 0 0
  nextId := 1
  vm := vm
  exited := fun _ => false
  donor := donor
  allocatedAreas := fun _ => .empty
  device := fun _ => ⟨[], []⟩
  donorLock := fun _ => none
  consumerLock := fun _ => none
  vmList := .empty
  registered := []
  vmListReaders := 0
  serving := fun _ => false
  events := []
  log := []

def initSystem (vm : VmId → Vm) (donor : VmId → DonorState) : System :=
  ⟨initShared vm donor, [.events .idle, .detection .idle]⟩

/-- Every region of every VM is as `DonatableRegion::new` made it. -/
def FreshDonors (donor : VmId → DonorState) : Prop :=
  ∀ v, ∀ r ∈ (donor v).donatableRegions, r = .new r.size r.path

/-- The states the orchestrator reaches, whatever its VMs are. -/
def Reachable (s : System) : Prop :=
  ∃ vm donor, FreshDonors donor ∧ orchestrator.Steps (fun _ _ => True) (initSystem vm donor) s

/-- The states reached by the runs whose every step meets `allow`. -/
def ReachableBy (allow : System → Op → Prop) (s : System) : Prop :=
  ∃ vm donor, FreshDonors donor ∧ orchestrator.Steps allow (initSystem vm donor) s

end EphMemory.Orchestrator
