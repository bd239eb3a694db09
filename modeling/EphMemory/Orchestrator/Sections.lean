import EphMemory.Orchestrator.Types

/-!
# Orchestrator — critical sections

The bodies of the lock-protected sections of `donor.rs` and `consumer.rs`, as
functions of the data the lock protects. Each section of a region is a function of the
`DonatableRegion`; each section of a consumer is one of its `allocated_areas`.

* `DonatableRegion.reserve`, `handleReservedAlloc`, `bookkeep` — the donor
  side of a grant and of its return;
* `contigRun` — the gap search of `reserve_memory_contig`;
* `findCoveredAllocations`, `signalAddDc`, `signalReleaseDc` — the event side.
-/

namespace EphMemory.Orchestrator

open EphMemory.Lib

-- ---------------------------------------------------------------------------
-- Donor side
-- ---------------------------------------------------------------------------

namespace DonatableRegion

/-- The region still has a whole chunk to donate. -/
def hasRoom (r : DonatableRegion) : Bool := !decide (r.size - r.donated < granularity)

/-- `size_to_allocate` of `allocate_eph_memory_inner`. -/
def sizeToAllocate (r : DonatableRegion) (size : Nat) : Nat :=
  alignDown (min size (r.size - r.donated))

/-- Book `size` bytes as donated and record the reserved allocations. -/
def reserve (r : DonatableRegion) (size : Nat) (ids : List AllocId) : DonatableRegion :=
  { r with
    donated := r.donated + size
    allocations := r.allocations.insertAll (ids.map fun x => (x, x)) }

/-- The granted size, clamped to the request and rounded down. -/
def usableGrant (requestedSize grantedSize : Nat) : Nat :=
  min grantedSize requestedSize - min grantedSize requestedSize % granularity

/-- The part of a clamped grant that rounding down leaves over. -/
def excess (requestedSize grantedSize : Nat) : Nat :=
  min grantedSize requestedSize % granularity

/-- The part of a grant that settles the region's debt. -/
def toRevoke (r : DonatableRegion) (requestedSize grantedSize : Nat) : Nat :=
  if r.revokedOwed > 0 then min r.revokedOwed (usableGrant requestedSize grantedSize) else 0

def finalSize (r : DonatableRegion) (requestedSize grantedSize : Nat) : Nat :=
  usableGrant requestedSize grantedSize - r.toRevoke requestedSize grantedSize

/-- `handle_reserved_alloc`: the region after it, the usable size and the
size to hand back at once. `donated` is not lowered for what was not granted:
the donor uses that memory itself and never offers it again. -/
def handleReservedAlloc (r : DonatableRegion) (allocIds : List AllocId)
    (requestedSize grantedSize : Nat) : DonatableRegion × Nat × Nat :=
  let finalSize := r.finalSize requestedSize grantedSize
  let firstFailedIdx := finalSize / granularity
  ({ r with
      revokedOwed := r.revokedOwed - r.toRevoke requestedSize grantedSize
      allocations := r.allocations.eraseAll (allocIds.drop firstFailedIdx) },
    finalSize, r.toRevoke requestedSize grantedSize + excess requestedSize grantedSize)

/-- `bookkeep_returned_eph_memory` on a region that is known. The saturating
branch prints a warning, which `tooMuch` tells. -/
def bookkeep (r : DonatableRegion) (x : AllocId) : DonatableRegion :=
  match r.allocations.get? x with
  | none => r
  | some _ =>
    { r with
      donated := if r.donated < granularity then 0 else r.donated - granularity
      allocations := r.allocations.erase x }

def tooMuch (r : DonatableRegion) (x : AllocId) : Bool :=
  (r.allocations.get? x).isSome && decide (r.donated < granularity)

end DonatableRegion

namespace DonorState

def findRegion (d : DonorState) (path : QomPath) : Option DonatableRegion :=
  d.donatableRegions.find? fun r => decide (r.path = path)

/-- Change the region at `path`; a change never moves a region to another
path. -/
def modifyRegion (d : DonorState) (path : QomPath)
    (f : DonatableRegion → DonatableRegion) : DonorState where
  donatableRegions := d.donatableRegions.map fun r =>
    if r.path = path then { f r with path := r.path } else r
  pathsDistinct := by
    rw [List.map_map]
    have : (DonatableRegion.path ∘ fun r : DonatableRegion =>
        if r.path = path then { f r with path := r.path } else r) = DonatableRegion.path := by
      funext r
      simp only [Function.comp_apply]
      split <;> rfl
    rw [this]
    exact d.pathsDistinct

end DonorState

-- ---------------------------------------------------------------------------
-- Reservation
-- ---------------------------------------------------------------------------

/-- The mutable variables of the gap search. -/
structure GapScan where
  largestGap : Nat
  largestGapOffset : Nat
  lastRegionEnd : Nat
  firstRegion : Bool
  brokeEarly : Bool
  deriving DecidableEq, Repr

namespace GapScan

def start : GapScan := ⟨0, 0, 0, true, false⟩

/-- The gap before the area at `regionOffset`. -/
def note (g : GapScan) (regionOffset : Nat) : GapScan :=
  if g.firstRegion then
    if regionOffset > 0 then
      { g with largestGap := regionOffset, largestGapOffset := 0, firstRegion := false }
    else { g with firstRegion := false }
  else if regionOffset - g.lastRegionEnd > g.largestGap then
    { g with
      largestGap := regionOffset - g.lastRegionEnd
      largestGapOffset := g.lastRegionEnd }
  else g

/-- The loop over the allocated areas, in offset order, up to its `break`. -/
def scan (size : Nat) (g : GapScan) : List Nat → GapScan
  | [] => g
  | regionOffset :: rest =>
    let g := g.note regionOffset
    if g.largestGap ≥ size then { g with brokeEarly := true }
    else scan size { g with lastRegionEnd := regionOffset + granularity } rest

/-- The gap after the last area. -/
def finish (g : GapScan) (deviceSize : Nat) : GapScan :=
  if deviceSize - g.lastRegionEnd > g.largestGap && !g.brokeEarly then
    { g with
      largestGap := deviceSize - g.lastRegionEnd
      largestGapOffset := g.lastRegionEnd }
  else g

end GapScan

/-- The run `reserve_memory_contig` takes from a device of `deviceSize` bytes
whose allocated areas start at `offsets`: its start and its length in bytes,
0 when there is nothing to take. -/
def contigRun (deviceSize : Nat) (offsets : List Nat) (size : Nat) : Nat × Nat :=
  let size := alignDown (if size > deviceSize then deviceSize else size)
  if size = 0 then (0, 0)
  else if offsets = [] then (0, size)
  else
    let g := (GapScan.start.scan size offsets).finish deviceSize
    let gap := alignDown g.largestGap
    if gap = 0 then (0, 0)
    else (g.largestGapOffset, if gap < size then gap else size)

/-- `(start..start + bytes).step_by(EPH_MEM_DONATION_GRANULARITY)`. -/
def runOffsets (start bytes : Nat) : List Nat :=
  (List.range (bytes / granularity)).map fun i => start + i * granularity

/-- The offsets of the allocations `reserve_memory_contig` creates. -/
def reserveOffsets (deviceSize : Nat) (areas : OrdMap Nat AllocId) (size : Nat) : List Nat :=
  let run := contigRun deviceSize areas.keys size
  runOffsets run.1 run.2

-- ---------------------------------------------------------------------------
-- Events
-- ---------------------------------------------------------------------------

/-- `find_covered_allocations`: the entries in the half-open range that are
fully covered, in offset order. -/
def findCoveredAllocations (areas : OrdMap Nat AllocId) (offset size : Nat) : List AllocId :=
  (areas.entries.filter fun e =>
    decide (offset ≤ e.1 ∧ e.1 < offset + size) &&
      decide (offset ≤ e.1 ∧ offset + size ≥ e.1 + granularity)).map Prod.snd

/-- The gaps `signal_add_dc` reports between the allocations of an extent:
`gapCursor` walks over them in offset order. -/
def gapsFrom (offsetOf : AllocId → Nat) (extentEnd : Nat) : Nat → List AllocId → List Extent
  | gapCursor, [] =>
    if gapCursor < extentEnd then [⟨gapCursor, extentEnd - gapCursor⟩] else []
  | gapCursor, x :: rest =>
    (if gapCursor < offsetOf x then [⟨gapCursor, offsetOf x - gapCursor⟩] else []) ++
      gapsFrom offsetOf extentEnd (offsetOf x + granularity) rest

/-- `signal_add_dc`: the allocations it marks and the extents it will ask the
consumer to release. -/
def signalAddDc (offsetOf : AllocId → Nat) (areas : OrdMap Nat AllocId) :
    List Extent → List AllocId × List Extent
  | [] => ([], [])
  | e :: rest =>
    let covered := findCoveredAllocations areas e.offset e.len
    let tail := signalAddDc offsetOf areas rest
    (covered ++ tail.1, gapsFrom offsetOf (e.offset + e.len) e.offset covered ++ tail.2)

/-- `signal_release_dc`: the areas after it and the allocations it removed. -/
def signalReleaseDc (offsetOf : AllocId → Nat) (areas : OrdMap Nat AllocId) :
    List Extent → OrdMap Nat AllocId × List AllocId
  | [] => (areas, [])
  | e :: rest =>
    let covered := findCoveredAllocations areas e.offset e.len
    let tail := signalReleaseDc offsetOf (areas.eraseAll (covered.map offsetOf)) rest
    (tail.1, covered ++ tail.2)

end EphMemory.Orchestrator
