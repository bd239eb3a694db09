import EphMemory.Orchestrator.Sections

/-!
# Orchestrator — atomic operations

`Op` lists everything a thread can do to the shared state in one step: a
lock-protected section, one iteration of a loop that runs under a lock, an
atomic flag, a QMP command, a vsock message. `Op.exec` is its effect. Which
operation a thread performs next is decided in `Tasks.lean`.

A section that calls into the allocations' own locks while it holds a VM's
mutex (`revoke_eph_memory`, `release_all_allocations`,
`release_reserved_memory`) is several operations between a lock and an unlock,
since a thread that does not need the mutex can change an allocation in
between. The other lock-protected sections are one operation each.
-/

namespace EphMemory.Orchestrator

open EphMemory.Lib

namespace Shared

def offsetOf (s : Shared) (x : AllocId) : Nat := (s.alloc x).consumerOffset

def region? (s : Shared) (d : DonorAllocation) : Option DonatableRegion :=
  (s.donor d.donorVm).findRegion d.donorQomPath

def emit (s : Shared) (o : Output) : Shared := { s with log := o :: s.log }

def setAlloc (s : Shared) (x : AllocId) (a : EphAllocation) : Shared :=
  { s with alloc := Function.update s.alloc x a }

def setAreas (s : Shared) (c : VmId) (m : OrdMap Nat AllocId) : Shared :=
  { s with allocatedAreas := Function.update s.allocatedAreas c m }

def modifyRegion (s : Shared) (d : DonorAllocation)
    (f : DonatableRegion → DonatableRegion) : Shared :=
  { s with
    donor := Function.update s.donor d.donorVm
      ((s.donor d.donorVm).modifyRegion d.donorQomPath f) }

/-- The offsets the next `reserve_memory_contig` of `c` would reserve. -/
def newOffsets (s : Shared) (c : VmId) (size : Nat) : List Nat :=
  reserveOffsets ((s.vm c).consumerSize.getD 0) (s.allocatedAreas c) size

/-- The allocations it would create there. -/
def newIds (s : Shared) (c : VmId) (size : Nat) : List AllocId :=
  List.range' s.nextId (s.newOffsets c size).length

def reserveMemoryContig (s : Shared) (c : VmId) (size : Nat) : Shared :=
  let offsets := s.newOffsets c size
  { s with
    alloc := fun y =>
      if s.nextId ≤ y ∧ y < s.nextId + offsets.length then
        EphAllocation.new (offsets.getD (y - s.nextId) 0) c
      else s.alloc y
    nextId := s.nextId + offsets.length
    allocatedAreas := Function.update s.allocatedAreas c
      ((s.allocatedAreas c).insertAll (offsets.zip (s.newIds c size))) }

end Shared

/-- What one iteration of `release_reserved_memory` finds at an offset. -/
inductive Claim where
  | absent
  | alreadyRequested (y : AllocId)
  /-- The allocation never made it to the DCD. -/
  | drop (y : AllocId)
  | release (y : AllocId)
  deriving DecidableEq, Repr

/-- The lookup is by offset: the allocation found need not be `x`. -/
def Shared.claimAt (s : Shared) (c : VmId) (x : AllocId) : Claim :=
  match (s.allocatedAreas c).get? (s.offsetOf x) with
  | none => .absent
  | some y =>
    if (s.alloc y).releaseRequested then .alreadyRequested y
    else if (s.alloc y).dcdSet then .release y
    else .drop y

/-- The allocation an iteration adds to `allocs_to_release`. -/
def Claim.toRelease : Claim → List AllocId
  | .release y => [y]
  | _ => []

inductive Op where
  | nop
  | panic (p : Panic)
  | lockConsumer (c : VmId) (tid : Tid)
  | unlockConsumer (c : VmId)
  | unlockDonor (v : VmId)
  | readVmList
  | unreadVmList
  -- consumer.rs: reserve_memory_contig
  | reserveMemoryContig (c : VmId) (size : Nat)
  -- donor.rs: allocate_eph_memory
  | reserveFromRegion (d : DonorAllocation) (size : Nat) (ids : List AllocId)
  | ephMemDonateCapacity (d : DonorAllocation) (size : Nat) (granted : Option Nat)
  | handleReservedAlloc (d : DonorAllocation) (ids : List AllocId) (requested granted : Nat)
  | ephMemReturnCapacity (d : DonorAllocation) (size : Nat) (covers : List AllocId) (ok : Bool)
  | setDonorInfo (x : AllocId) (d : DonorAllocation)
  | commitState (x : AllocId)
  | bookkeep (d : DonorAllocation) (x : AllocId)
  -- donor.rs: revoke_eph_memory
  | beginRevoke (d : DonorAllocation) (size : Nat) (tid : Tid)
  | tryClaim (d : DonorAllocation) (x : AllocId)
  | bookDebt (d : DonorAllocation) (amount : Nat)
  -- main.rs: return_eph_memory_from_consumer
  | abandon (x : AllocId)
  -- consumer.rs: release_reserved_memory; `taken` tells whether the caller has
  -- taken the donor of `x`
  | claimRelease (c : VmId) (x : AllocId) (call : List AllocId) (taken : Bool)
  | cxlReleaseDynamicCapacity (c : VmId) (call xs : List AllocId) (ok : Bool)
  | releaseTimedOut (c : VmId) (xs : List AllocId)
  | removeAreas (c : VmId) (call xs : List AllocId)
  -- consumer.rs: handle_eph_mem_request
  | cxlAddDynamicCapacity (c : VmId) (xs : List AllocId) (ok : Bool)
  | ephMemResponse (c : VmId) (x : AllocId)
  -- events.rs and the handlers in consumer.rs
  | nextEvent
  | signalAddDc (c : VmId) (extents : List Extent) (about : List AllocId)
  | releaseGaps (c : VmId) (extents : List Extent) (ok : Bool)
  | signalReleaseDc (c : VmId) (extents : List Extent) (about : List AllocId)
  -- vm_detection.rs and remove_vms
  | register (v : VmId)
  | unregister (paths : List SocketPath)
  | setExited (v : VmId)
  | beginSnapshot (v : VmId) (tid : Tid)
  | removalFinished (v : VmId)
  -- the end of a request
  | requestDone (c : VmId)
  -- the environment: a consumer's request, QEMU's events
  | startRequest (c : VmId) (size : Nat)
  | emitAdd (c : VmId) (extents : List Extent) (about : List AllocId)
  | emitRelease (c : VmId) (extents : List Extent) (about : List AllocId)
  | emitRevoke (v : VmId) (path : QomPath) (size : Nat)
  deriving DecidableEq, Repr

open Shared in
def Op.exec : Op → Shared → Shared
  | .nop, s => s
  | .panic p, s => s.emit (.panicked p)
  | .lockConsumer c tid, s =>
    { s with consumerLock := Function.update s.consumerLock c (some tid) }
  | .unlockConsumer c, s => { s with consumerLock := Function.update s.consumerLock c none }
  | .unlockDonor v, s => { s with donorLock := Function.update s.donorLock v none }
  | .readVmList, s => { s with vmListReaders := s.vmListReaders + 1 }
  | .unreadVmList, s => { s with vmListReaders := s.vmListReaders - 1 }
  | .reserveMemoryContig c size, s => s.reserveMemoryContig c size
  | .reserveFromRegion d size ids, s =>
    { s.modifyRegion d (·.reserve size ids) with vmListReaders := s.vmListReaders - 1 }
  | .ephMemDonateCapacity d size granted, s => s.emit (.ephMemDonateCapacity d size granted)
  | .handleReservedAlloc d ids requested granted, s =>
    match s.region? d with
    | none => s
    | some r =>
      (s.modifyRegion d fun r => (r.handleReservedAlloc ids requested granted).1).emit
        (.confirmed d (ids.take (r.finalSize requested granted / granularity))
          (r.toRevoke requested granted))
  | .ephMemReturnCapacity d size covers ok, s => s.emit (.ephMemReturnCapacity d size covers ok)
  | .setDonorInfo x d, s =>
    s.setAlloc x { s.alloc x with donorInfo := (s.alloc x).donorInfo.or (some d) }
  | .commitState x, s =>
    match (s.alloc x).commitState with
    | none => s.emit (.panicked .committedTwice)
    | some (live, a) => (s.setAlloc x a).emit (.committed x live)
  | .bookkeep d x, s =>
    match s.region? d with
    | none => s
    | some r =>
      if r.tooMuch x then (s.modifyRegion d (·.bookkeep x)).emit (.returningTooMuch d)
      else s.modifyRegion d (·.bookkeep x)
  | .beginRevoke d size tid, s =>
    { s.emit (.revokeAsked d size) with
      donorLock := Function.update s.donorLock d.donorVm (some tid) }
  | .tryClaim d x, s =>
    if (s.alloc x).tryClaimForRevoke.1 then
      (s.setAlloc x (s.alloc x).tryClaimForRevoke.2).emit (.claimed d x)
    else s
  | .bookDebt d amount, s =>
    { s.modifyRegion d (fun r => { r with revokedOwed := r.revokedOwed + amount }) with
      donorLock := Function.update s.donorLock d.donorVm none }
  | .abandon x, s =>
    (s.setAlloc x (s.alloc x).abandonOrTakeDonor.2).emit
      (.abandoned x (s.alloc x).abandonOrTakeDonor.1)
  | .claimRelease c x call _, s =>
    match s.claimAt c x with
    | .absent => s
    | .alreadyRequested _ => s
    | .release y =>
      (s.setAlloc y { s.alloc y with releaseRequested := true }).emit (.releaseRequested call y)
    | .drop y =>
      (((s.setAlloc y { s.alloc y with releaseRequested := true }).setAreas c
        ((s.allocatedAreas c).erase (s.offsetOf x))).emit (.releaseRequested call y)).emit
          (.removedArea call y)
  | .cxlReleaseDynamicCapacity c call xs ok, s =>
    s.emit (.cxlReleaseDynamicCapacity c call xs ok)
  | .releaseTimedOut c xs, s => s.emit (.releaseTimedOut c xs)
  | .removeAreas c call xs, s =>
    { s.setAreas c ((s.allocatedAreas c).eraseAll (xs.map s.offsetOf)) with
      log := (xs.filterMap fun x => (s.allocatedAreas c).get? (s.offsetOf x)).map
        (Output.removedArea call) ++ s.log }
  | .cxlAddDynamicCapacity c xs ok, s =>
    { s.emit (.cxlAddDynamicCapacity c xs ok) with
      device := Function.update s.device c
        (if ok then ⟨(s.device c).unacked ++ xs, (s.device c).dcd ++ xs⟩ else s.device c) }
  | .ephMemResponse c x, s => s.emit (.ephMemResponse c x)
  | .nextEvent, s => { s with events := s.events.tail }
  | .signalAddDc c extents about, s =>
    let marked := (Orchestrator.signalAddDc s.offsetOf (s.allocatedAreas c) extents).1
    { s.emit (.addAcknowledged c marked about) with
      alloc := fun y => if y ∈ marked then { s.alloc y with dcdSet := true } else s.alloc y }
  | .releaseGaps c extents ok, s => s.emit (.releaseGaps c extents ok)
  | .signalReleaseDc c extents about, s =>
    (s.setAreas c (Orchestrator.signalReleaseDc s.offsetOf (s.allocatedAreas c) extents).1).emit
      (.releaseConfirmed c about)
  | .register v, s =>
    { s with
      vmList := s.vmList.insert (s.vm v).qmpSocketPath v
      registered := v :: s.registered }
  | .unregister paths, s => { s with vmList := s.vmList.eraseAll paths }
  | .setExited v, s => { s with exited := Function.update s.exited v true }
  | .beginSnapshot v tid, s =>
    { s.emit (.donorSnapshot v) with donorLock := Function.update s.donorLock v (some tid) }
  | .removalFinished v, s => s.emit (.removalFinished v)
  | .requestDone c, s => { s with serving := Function.update s.serving c false }
  | .startRequest c _, s => { s with serving := Function.update s.serving c true }
  | .emitAdd c extents about, s =>
    { s with
      device := Function.update s.device c
        ⟨(s.device c).unacked.filter (· ∉ about), (s.device c).dcd⟩
      events := s.events ++
        [⟨(s.vm c).qmpSocketPath, c, .cxlAddDynamicCapacityResponse extents about⟩] }
  | .emitRelease c extents about, s =>
    { s with
      device := Function.update s.device c
        ⟨(s.device c).unacked, (s.device c).dcd.filter (· ∉ about)⟩
      events := s.events ++
        [⟨(s.vm c).qmpSocketPath, c, .cxlReleaseDynamicCapacity extents about⟩] }
  | .emitRevoke v path size, s =>
    { s with events := s.events ++ [⟨(s.vm v).qmpSocketPath, v, .ephMemRevoke path size⟩] }

end EphMemory.Orchestrator
