import EphMemory.Lib.OrdMap
import EphMemory.Lib.Pool
import EphMemory.Proto

/-!
# Orchestrator — data model

The records of `eph_orchestrator`: allocations, donatable regions, VMs and the
state its threads share. `Arc<EphAllocation>` is an index into the heap
`Shared.alloc`; the index is the allocation's `id`, which
`ALLOC_ID_COUNTER` hands out once. A `Vm` instance is a `VmId`; its QMP socket
path is a field of it, since a path can be reused by a later instance. Socket
and QOM paths are only ever compared, so they are kept as keys.

Two parts of the shared state are not the orchestrator's own memory:

* `Device` is what QEMU holds for a consumer's DCD, so that the events it
  emits can be told apart by the allocation they are about;
* `Shared.log` records what the threads did, newest first: the QMP commands
  and vsock messages they sent with the outcome, and the answers of the
  allocation state machine. The theorems read it; no thread does.
-/

namespace EphMemory.Orchestrator

open EphMemory.Lib

abbrev VmId := Nat
abbrev AllocId := Nat
abbrev Tid := Nat
abbrev SocketPath := Nat
abbrev QomPath := Nat

-- ---------------------------------------------------------------------------
-- Alignment
-- ---------------------------------------------------------------------------

/-- `n & !(EPH_MEM_DONATION_GRANULARITY - 1)`: the granularity is a power of
two, which `main` asserts, so the mask rounds down. -/
def alignDown (n : Nat) : Nat := n / granularity * granularity

theorem alignDown_le (n : Nat) : alignDown n ≤ n := Nat.div_mul_le_self n granularity

theorem dvd_alignDown (n : Nat) : granularity ∣ alignDown n := Nat.dvd_mul_left ..

-- ---------------------------------------------------------------------------
-- Allocations
-- ---------------------------------------------------------------------------

inductive AllocState where
  | pendingCommit
  | committed
  | pendingRelease
  | abandoned
  deriving DecidableEq, Repr

/-- Which donor VM and which memory device of it back an allocation. -/
structure DonorAllocation where
  donorVm : VmId
  donorQomPath : QomPath
  deriving DecidableEq, Repr

structure EphAllocation where
  consumerOffset : Nat
  consumerVm : VmId
  state : AllocState
  donorInfo : Option DonorAllocation
  dcdSet : Bool
  releaseRequested : Bool
  deriving DecidableEq, Repr

namespace EphAllocation

def new (consumerOffset : Nat) (consumerVm : VmId) : EphAllocation :=
  ⟨consumerOffset, consumerVm, .pendingCommit, none, false, false⟩

def isCommitted (a : EphAllocation) : Bool := a.state = .committed

def isReleaseRequested (a : EphAllocation) : Bool := a.releaseRequested

def isLive (a : EphAllocation) : Bool := a.dcdSet && a.isCommitted && !a.isReleaseRequested

/-- The half of `commit_allocation` under the state mutex. `none` is the
'only be committed once' panic; `true` a live commit; `false` tells the caller
to hand the memory straight back. -/
def commitState (a : EphAllocation) : Option (Bool × EphAllocation) :=
  match a.state with
  | .pendingCommit => some (true, { a with state := .committed })
  | .abandoned => some (false, a)
  | .committed => none
  | .pendingRelease => none

def tryClaimForRevoke (a : EphAllocation) : Bool × EphAllocation :=
  if a.state = .committed then (true, { a with state := .pendingRelease }) else (false, a)

def abandonOrTakeDonor (a : EphAllocation) : Option DonorAllocation × EphAllocation :=
  match a.state with
  | .committed => (a.donorInfo, { a with state := .abandoned })
  | .pendingRelease => (a.donorInfo, { a with state := .abandoned })
  | .pendingCommit => (none, { a with state := .abandoned })
  | .abandoned => (none, a)

end EphAllocation

-- ---------------------------------------------------------------------------
-- Donors and consumers
-- ---------------------------------------------------------------------------

structure DonatableRegion where
  size : Nat
  donated : Nat
  path : QomPath
  revokedOwed : Nat
  allocations : OrdMap Nat AllocId

def DonatableRegion.new (size : Nat) (path : QomPath) : DonatableRegion :=
  ⟨size, 0, path, 0, .empty⟩

/-- The donatable regions of a VM. QEMU object ids are unique within a VM, so
the region paths are distinct; a VM with no region has no donor state. -/
structure DonorState where
  donatableRegions : List DonatableRegion
  pathsDistinct : (donatableRegions.map DonatableRegion.path).Nodup

/-- QEMU's side of a consumer's DCD: the allocations whose add command it
accepted and has not acknowledged, and those whose extents it still holds. -/
structure Device where
  unacked : List AllocId
  dcd : List AllocId
  deriving DecidableEq, Repr

/-- The immutable part of a `Vm`. `consumerSize` is the size of its DCD, none
when the VM has no consumer state. -/
structure Vm where
  qmpSocketPath : SocketPath
  consumerSize : Option Nat
  deriving DecidableEq, Repr

-- ---------------------------------------------------------------------------
-- Events and the log
-- ---------------------------------------------------------------------------

structure Extent where
  offset : Nat
  len : Nat
  deriving DecidableEq, Repr

/-- The events the handler acts on. `about` is QEMU's own knowledge of which
allocations it added or released; the JSON carries only the extents. -/
inductive EventData where
  | cxlAddDynamicCapacityResponse (extents : List Extent) (about : List AllocId)
  | cxlReleaseDynamicCapacity (extents : List Extent) (about : List AllocId)
  | ephMemRevoke (path : QomPath) (size : Nat)
  deriving DecidableEq, Repr

structure QmpEvent where
  vmPath : SocketPath
  source : VmId
  data : EventData
  deriving DecidableEq, Repr

inductive Panic where
  | donorInfoSetTwice
  | committedTwice
  | sliceIndex
  deriving DecidableEq, Repr

/-- What the threads did. A list `call` is the list of allocations the release
call in question was given. -/
inductive Output where
  | ephMemDonateCapacity (d : DonorAllocation) (size : Nat) (granted : Option Nat)
  | confirmed (d : DonorAllocation) (kept : List AllocId) (settled : Nat)
  | ephMemReturnCapacity (d : DonorAllocation) (size : Nat) (covers : List AllocId) (ok : Bool)
  | committed (x : AllocId) (live : Bool)
  | revokeAsked (d : DonorAllocation) (size : Nat)
  | claimed (d : DonorAllocation) (x : AllocId)
  | abandoned (x : AllocId) (donor : Option DonorAllocation)
  | releaseRequested (call : List AllocId) (x : AllocId)
  | removedArea (call : List AllocId) (x : AllocId)
  | cxlReleaseDynamicCapacity (c : VmId) (call xs : List AllocId) (ok : Bool)
  | releaseTimedOut (c : VmId) (xs : List AllocId)
  | cxlAddDynamicCapacity (c : VmId) (xs : List AllocId) (ok : Bool)
  | addAcknowledged (c : VmId) (marked about : List AllocId)
  | releaseConfirmed (c : VmId) (about : List AllocId)
  | releaseGaps (c : VmId) (extents : List Extent) (ok : Bool)
  | donorSnapshot (v : VmId)
  | removalFinished (v : VmId)
  | ephMemResponse (c : VmId) (x : AllocId)
  | returningTooMuch (d : DonorAllocation)
  | panicked (p : Panic)
  deriving DecidableEq, Repr

-- ---------------------------------------------------------------------------
-- Shared state
-- ---------------------------------------------------------------------------

/-- The state the threads share. The mutable fields of a `Vm` are functions of
the instance. -/
structure Shared where
  alloc : AllocId → EphAllocation
  /-- `ALLOC_ID_COUNTER`. -/
  nextId : AllocId
  vm : VmId → Vm
  exited : VmId → Bool
  donor : VmId → DonorState
  allocatedAreas : VmId → OrdMap Nat AllocId
  device : VmId → Device
  /-- The thread that holds the donor's `mut_state` over several steps. -/
  donorLock : VmId → Option Tid
  /-- The thread that holds the consumer's `mut_state` over several steps. -/
  consumerLock : VmId → Option Tid
  vmList : OrdMap SocketPath VmId
  /-- The instances that were ever in the VM list. -/
  registered : List VmId
  /-- The number of threads inside a read-locked walk of the VM list. -/
  vmListReaders : Nat
  /-- The consumer's thread is inside `handle_eph_mem_request`: it handles one
  request after the other. -/
  serving : VmId → Bool
  /-- The channel from the QMP reader threads to the event handler. -/
  events : List QmpEvent
  log : List Output

end EphMemory.Orchestrator
