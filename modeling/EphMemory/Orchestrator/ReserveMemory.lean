import EphMemory.Lib.Alone
import EphMemory.Orchestrator.Overflow

/-!
# Orchestrator — a whole reservation

`reserve_memory` calls `reserve_memory_contig` until nothing is left to
reserve or nothing is found. Each call takes from the largest gap, so it finds
something as long as a whole chunk of the device is free: fragmentation never
ends the loop early.

* `contigRun64`, `reserveMemory64` — the two functions with the `u64`
  arithmetic they do;
* `GapScan.Passed` — a free chunk the scan has passed fits into the gap it
  keeps;
* `reserveOffsets_ne_nil` — a free chunk is found;
* `reserveMemory64_reserves` — what the loop reserves;
* `reserve_memory_complete` — from every map that reservations and removals
  make of the empty one.
-/

namespace EphMemory.Orchestrator

open EphMemory.Lib

-- ---------------------------------------------------------------------------
-- The functions, with their arithmetic
-- ---------------------------------------------------------------------------

/-- `a - b` on `u64`. -/
def sub64 (a b : Nat) : Option Nat := if b ≤ a then some (a - b) else none

/-- `a * b` on `u64`. -/
def mul64 (a b : Nat) : Option Nat := if a * b < 2 ^ 64 then some (a * b) else none

theorem sub64_eq_some {a b c : Nat} : sub64 a b = some c ↔ b ≤ a ∧ a - b = c := by
  unfold sub64
  split <;> simp_all

theorem mul64_eq_some {a b c : Nat} : mul64 a b = some c ↔ a * b < 2 ^ 64 ∧ a * b = c := by
  unfold mul64
  split <;> simp_all

namespace GapScan

def note64 (g : GapScan) (regionOffset : Nat) : Option GapScan :=
  if g.firstRegion then
    if regionOffset > 0 then
      some { g with largestGap := regionOffset, largestGapOffset := 0, firstRegion := false }
    else some { g with firstRegion := false }
  else
    match sub64 regionOffset g.lastRegionEnd with
    | none => none
    | some gapSize =>
      if gapSize > g.largestGap then
        some { g with largestGap := gapSize, largestGapOffset := g.lastRegionEnd }
      else some g

/-- `regionSize` is `alloc_region.1.size()`. -/
def scan64 (regionSize size : Nat) (g : GapScan) : List Nat → Option GapScan
  | [] => some g
  | regionOffset :: rest =>
    match g.note64 regionOffset with
    | none => none
    | some g =>
      if g.largestGap ≥ size then some { g with brokeEarly := true }
      else
        match add64 regionOffset regionSize with
        | none => none
        | some lastRegionEnd => scan64 regionSize size { g with lastRegionEnd := lastRegionEnd } rest

def finish64 (g : GapScan) (deviceSize : Nat) : Option GapScan :=
  match sub64 deviceSize g.lastRegionEnd with
  | none => none
  | some finalGap =>
    if finalGap > g.largestGap && !g.brokeEarly then
      some { g with largestGap := finalGap, largestGapOffset := g.lastRegionEnd }
    else some g

end GapScan

/-- The run `reserve_memory_contig` takes. -/
def contigRun64 (deviceSize : Nat) (offsets : List Nat) (size : Nat) : Option (Nat × Nat) :=
  let size := alignDown (if size > deviceSize then deviceSize else size)
  if size = 0 then some (0, 0)
  else if offsets = [] then some (0, size)
  else
    match GapScan.start.scan64 granularity size offsets with
    | none => none
    | some g =>
      match g.finish64 deviceSize with
      | none => none
      | some g =>
        let gap := alignDown g.largestGap
        if gap = 0 then some (0, 0)
        else
          let size := if gap < size then gap else size
          match add64 g.largestGapOffset size with
          | none => none
          | some _ => some (g.largestGapOffset, size)

namespace Shared

/-- The size of a consumer's DCD. -/
def deviceSize (s : Shared) (c : VmId) : Nat := (s.vm c).consumerSize.getD 0

def newOffsets64 (s : Shared) (c : VmId) (size : Nat) : Option (List Nat) :=
  (contigRun64 (s.deviceSize c) (s.allocatedAreas c).keys size).map
    fun run => runOffsets run.1 run.2

/-- Create an allocation at each offset and enter it into the map. -/
def createAt (s : Shared) (c : VmId) (offsets : List Nat) : Shared :=
  { s with
    alloc := fun y =>
      if s.nextId ≤ y ∧ y < s.nextId + offsets.length then
        EphAllocation.new (offsets.getD (y - s.nextId) 0) c
      else s.alloc y
    nextId := s.nextId + offsets.length
    allocatedAreas := Function.update s.allocatedAreas c
      ((s.allocatedAreas c).insertAll (offsets.zip (List.range' s.nextId offsets.length))) }

end Shared

/-- How an iteration of the loop in `reserve_memory` ends. -/
inductive Round where
  | overflow
  | finished
  | next (s : Shared) (remaining : Nat) (allocations : List AllocId)

/-- One iteration, with `remaining` bytes to go. -/
def reserveRound64 (c : VmId) (s : Shared) (remaining : Nat) (allocations : List AllocId) :
    Round :=
  if remaining > 0 then
    match s.newOffsets64 c remaining with
    | none => .overflow
    | some offsets =>
      if offsets = [] then .finished
      else
        match (mul64 offsets.length granularity).bind (sub64 remaining) with
        | none => .overflow
        | some remaining =>
          .next (s.createAt c offsets) remaining
            (allocations ++ List.range' s.nextId offsets.length)
  else .finished

/-- An iteration that reserves something leaves less to reserve. -/
theorem reserveRound64_lt {c : VmId} {s s' : Shared} {remaining remaining' : Nat}
    {allocations allocations' : List AllocId}
    (h : reserveRound64 c s remaining allocations = .next s' remaining' allocations') :
    remaining' < remaining := by
  unfold reserveRound64 at h
  split at h
  · split at h
    · cases h
    · rename_i offsets _
      split at h
      · cases h
      · rename_i hEmpty
        have hLen : 0 < offsets.length := List.length_pos_iff.mpr hEmpty
        split at h
        · cases h
        · rename_i hBind
          obtain ⟨allocSize, hMul, hSub⟩ := Option.bind_eq_some_iff.mp hBind
          obtain ⟨hLe, hEq⟩ := sub64_eq_some.mp hSub
          have hPos : 0 < allocSize := by
            rw [← (mul64_eq_some.mp hMul).2]
            exact Nat.mul_pos hLen granularity_pos
          cases h
          omega
  · cases h

/-- `reserve_memory` run without interleaving: the state after it and the
allocations it returns, or none when an operation overflows. -/
def reserveMemory64 (c : VmId) (s : Shared) (remaining : Nat) (allocations : List AllocId) :
    Option (Shared × List AllocId) :=
  match _h : reserveRound64 c s remaining allocations with
  | .overflow => none
  | .finished => some (s, allocations)
  | .next s' remaining' allocations' => reserveMemory64 c s' remaining' allocations'
termination_by remaining
decreasing_by exact reserveRound64_lt _h

-- ---------------------------------------------------------------------------
-- The arithmetic does not overflow
-- ---------------------------------------------------------------------------

theorem sub64_of_le {a b : Nat} (h : b ≤ a) : sub64 a b = some (a - b) := if_pos h

/-- Taking whole chunks off a size that has them stays in range. -/
theorem mul64_sub64 {k g n : Nat} (h : k * g ≤ n) (hn : n < 2 ^ 64) :
    (mul64 k g).bind (sub64 n) = some (n - k * g) := by
  have hMul : mul64 k g = some (k * g) := if_pos (lt_of_le_of_lt h hn)
  rw [hMul, Option.bind_some, sub64_of_le h]

namespace GapScan

/-- Noting a gap does not underflow, since areas do not overlap. -/
theorem note64_eq {g : GapScan} {o : Nat} (h : g.lastRegionEnd ≤ o) :
    g.note64 o = some (g.note o) := by
  unfold note64 note
  split
  · split <;> rfl
  · rw [sub64_of_le h]
    simp only
    split <;> rfl

/-- The scan in 64 bits is the scan. -/
theorem scan64_eq {deviceSize : Nat} (hDevice : deviceSize < 2 ^ 64) (size : Nat)
    {offsets : List Nat} (hAligned : AreasAligned deviceSize offsets) {todo : List Nat}
    {g : GapScan} (hSub : ∀ o ∈ todo, o ∈ offsets) (hSorted : todo.Pairwise (· < ·))
    (h : Sound deviceSize offsets todo g) :
    g.scan64 granularity size todo = some (g.scan size todo) := by
  induction todo generalizing g with
  | nil => rfl
  | cons o rest ih =>
    have hMem := hSub o (List.mem_cons_self ..)
    have hEnd : o + granularity < 2 ^ 64 := lt_of_le_of_lt (hAligned o hMem).2 hDevice
    have hRest := ih (fun o' ho' => hSub o' (List.mem_cons_of_mem _ ho'))
      (List.pairwise_cons.mp hSorted).2 (h.next hAligned hSub hSorted)
    rw [scan64, note64_eq (h.ahead o (List.mem_cons_self ..)), scan]
    simp only
    split
    · rfl
    · rw [add64_of_lt hEnd]
      exact hRest

/-- The last gap ends within the device. -/
theorem finish64_eq {g : GapScan} {deviceSize : Nat} (h : g.lastRegionEnd ≤ deviceSize) :
    g.finish64 deviceSize = some (g.finish deviceSize) := by
  unfold finish64 finish
  rw [sub64_of_le h]
  simp only
  split <;> rfl

/-- The scan never leaves the device. -/
theorem scan_lastRegionEnd {deviceSize : Nat} (size : Nat) {offsets : List Nat}
    (hAligned : AreasAligned deviceSize offsets) {todo : List Nat} {g : GapScan}
    (hSub : ∀ o ∈ todo, o ∈ offsets) (h : g.lastRegionEnd ≤ deviceSize) :
    (g.scan size todo).lastRegionEnd ≤ deviceSize := by
  induction todo generalizing g with
  | nil => exact h
  | cons o rest ih =>
    have hNote : (g.note o).lastRegionEnd = g.lastRegionEnd := by
      unfold note
      split
      · split <;> rfl
      · split <;> rfl
    rw [scan]
    split
    · exact hNote ▸ h
    · exact ih (fun o' ho' => hSub o' (List.mem_cons_of_mem _ ho'))
        (hAligned o (hSub o (List.mem_cons_self ..))).2

end GapScan

/-- The search in 64 bits finds the same run, whatever the size asked for. -/
theorem contigRun64_eq {deviceSize : Nat} (hDevice : deviceSize < 2 ^ 64) {offsets : List Nat}
    (hAligned : AreasAligned deviceSize offsets) (hSorted : offsets.Pairwise (· < ·))
    (size : Nat) :
    contigRun64 deviceSize offsets size = some (contigRun deviceSize offsets size) := by
  unfold contigRun64 contigRun
  generalize alignDown (if size > deviceSize then deviceSize else size) = n
  simp only
  split
  · rfl
  split
  · rfl
  have hEnd := GapScan.scan_lastRegionEnd n hAligned (fun _ h => h)
    (g := .start) (Nat.zero_le deviceSize)
  obtain ⟨-, -, hIn⟩ := GapScan.finish_sound n hAligned hSorted
  rw [GapScan.scan64_eq hDevice n hAligned (fun _ h => h) hSorted GapScan.start_sound]
  simp only
  rw [GapScan.finish64_eq hEnd]
  simp only
  have hGap := alignDown_le ((GapScan.start.scan n offsets).finish deviceSize).largestGap
  split
  · rfl
  · rw [add64_of_lt (by split <;> omega)]

-- ---------------------------------------------------------------------------
-- A free chunk is found
-- ---------------------------------------------------------------------------

namespace GapScan

/-- A free chunk the scan has passed fits into the gap it keeps. -/
def Passed (offsets : List Nat) (g : GapScan) : Prop :=
  ∀ p, granularity ∣ p → p ∉ offsets → p + granularity ≤ g.lastRegionEnd →
    granularity ≤ g.largestGap

/-- Passing an area leaves no gap behind that was not noted. -/
theorem Passed.next {deviceSize o : Nat} {offsets rest : List Nat} {g : GapScan}
    (hPassed : Passed offsets g) (h : Sound deviceSize offsets (o :: rest) g)
    (hAligned : AreasAligned deviceSize offsets) (hMem : o ∈ offsets) :
    Passed offsets { g.note o with lastRegionEnd := o + granularity } := by
  intro p hp hFree hEnd
  have hNote := note_eq o h.first
  rw [hNote]
  show granularity ≤ max g.largestGap (o - g.lastRegionEnd)
  have hEnd : p + granularity ≤ o + granularity := hEnd
  have hNe : p ≠ o := fun heq => hFree (heq ▸ hMem)
  -- the chunk lies before the area, by whole chunks
  have hBefore := add_granularity_le_of_dvd hp (hAligned o hMem).1 (by omega)
  rcases Nat.lt_or_ge p g.lastRegionEnd with hLt | hGe
  · have hIn := add_granularity_le_of_dvd hp h.endAligned hLt
    exact le_trans (hPassed p hp hFree hIn) (le_max_left ..)
  · exact le_trans (by omega) (le_max_right ..)

/-- A scan that went to the end has noted the largest gap. -/
theorem scan_passed {deviceSize : Nat} (size : Nat) {offsets : List Nat}
    (hAligned : AreasAligned deviceSize offsets) {todo : List Nat} {g : GapScan}
    (hSub : ∀ o ∈ todo, o ∈ offsets) (hSorted : todo.Pairwise (· < ·))
    (h : Sound deviceSize offsets todo g) (hPassed : Passed offsets g)
    (hBroke : g.brokeEarly = false) :
    (g.scan size todo).brokeEarly = true ∧ size ≤ (g.scan size todo).largestGap ∨
      (g.scan size todo).brokeEarly = false ∧ Passed offsets (g.scan size todo) := by
  induction todo generalizing g with
  | nil => exact Or.inr ⟨hBroke, hPassed⟩
  | cons o rest ih =>
    rw [scan]
    split
    · rename_i hGap
      exact Or.inl ⟨rfl, hGap⟩
    · refine ih (fun o' ho' => hSub o' (List.mem_cons_of_mem _ ho'))
        (List.pairwise_cons.mp hSorted).2 (h.next hAligned hSub hSorted)
        (hPassed.next h hAligned (hSub o (List.mem_cons_self ..))) ?_
      rw [note_eq o h.first]
      exact hBroke

/-- A device with a free chunk has a gap of at least a chunk. -/
theorem finish_complete {deviceSize size : Nat} (hSize : granularity ≤ size)
    {offsets : List Nat} (hAligned : AreasAligned deviceSize offsets)
    (hSorted : offsets.Pairwise (· < ·)) {p : Nat} (hp : granularity ∣ p) (hFree : p ∉ offsets)
    (hIn : p + granularity ≤ deviceSize) :
    granularity ≤ ((start.scan size offsets).finish deviceSize).largestGap := by
  have hStart : Passed offsets start := fun p _ _ hEnd => by
    have := granularity_pos
    simp only [start] at hEnd
    omega
  obtain ⟨-, -, -, hEnd⟩ :=
    scan_sound size hAligned offsets start (fun _ h => h) hSorted start_sound
  rcases scan_passed size hAligned (fun _ h => h) hSorted start_sound hStart rfl with
    ⟨hBroke, hGap⟩ | ⟨hBroke, hPassed⟩
  · rw [finish, hBroke, if_neg (by simp)]
    exact le_trans hSize hGap
  · have hSound := hEnd hBroke rfl
    rw [finish, hBroke]
    rcases Nat.lt_or_ge p (start.scan size offsets).lastRegionEnd with hLt | hGe
    · have hGap := hPassed p hp hFree (add_granularity_le_of_dvd hp hSound.endAligned hLt)
      split
      · rename_i hMore
        rw [Bool.and_eq_true, decide_eq_true_eq] at hMore
        exact le_of_lt (lt_of_le_of_lt hGap hMore.1)
      · exact hGap
    · split
      · show granularity ≤ deviceSize - (start.scan size offsets).lastRegionEnd
        omega
      · rename_i hLess
        simp only [Bool.not_false, Bool.and_true, decide_eq_true_eq, not_lt] at hLess
        omega

end GapScan

/-- A size of a granule and more keeps one when it is cut down. -/
theorem le_alignDown {n : Nat} (h : granularity ≤ n) : granularity ≤ alignDown n := by
  unfold alignDown
  have hPos : 0 < n / granularity := Nat.div_pos h granularity_pos
  calc granularity = 1 * granularity := (Nat.one_mul _).symm
    _ ≤ n / granularity * granularity := Nat.mul_le_mul_right _ hPos

/-- While a chunk of the device is free, `reserve_memory_contig` takes at
least one. -/
theorem contigRun_complete {deviceSize size : Nat} (hSize : granularity ≤ size)
    {offsets : List Nat} (hAligned : AreasAligned deviceSize offsets)
    (hSorted : offsets.Pairwise (· < ·)) {p : Nat} (hp : granularity ∣ p) (hFree : p ∉ offsets)
    (hIn : p + granularity ≤ deviceSize) :
    granularity ≤ (contigRun deviceSize offsets size).2 := by
  have hPos := granularity_pos
  have hClamp : granularity ≤ alignDown (if size > deviceSize then deviceSize else size) := by
    refine le_alignDown ?_
    split <;> omega
  unfold contigRun
  generalize alignDown (if size > deviceSize then deviceSize else size) = n at hClamp
  have hn : n ≠ 0 := by omega
  have hGap := le_alignDown (GapScan.finish_complete hClamp hAligned hSorted hp hFree hIn)
  by_cases hEmpty : offsets = []
  · simp only [hn, hEmpty, if_true, if_false]
    exact hClamp
  · simp only [hn, hEmpty, if_false]
    rw [if_neg (by omega)]
    simp only
    split
    · exact hGap
    · exact hClamp

-- ---------------------------------------------------------------------------
-- Counting chunks
-- ---------------------------------------------------------------------------

/-- The chunks of a device. -/
def chunksOf (deviceSize : Nat) : List Nat :=
  (List.range (deviceSize / granularity)).map (· * granularity)

/-- The chunks of a device are its aligned granules. -/
theorem mem_chunksOf {deviceSize p : Nat} :
    p ∈ chunksOf deviceSize ↔ granularity ∣ p ∧ p + granularity ≤ deviceSize := by
  unfold chunksOf
  rw [List.mem_map]
  constructor
  · rintro ⟨i, hi, rfl⟩
    refine ⟨Nat.dvd_mul_left .., ?_⟩
    calc i * granularity + granularity = (i + 1) * granularity := by ring
      _ ≤ deviceSize / granularity * granularity :=
        Nat.mul_le_mul_right _ (List.mem_range.mp hi)
      _ ≤ deviceSize := Nat.div_mul_le_self ..
  · rintro ⟨⟨i, rfl⟩, hIn⟩
    refine ⟨i, List.mem_range.mpr ?_, Nat.mul_comm ..⟩
    rw [Nat.lt_iff_add_one_le, Nat.le_div_iff_mul_le granularity_pos]
    calc (i + 1) * granularity = granularity * i + granularity := by ring
      _ ≤ deviceSize := hIn

theorem length_chunksOf (deviceSize : Nat) :
    (chunksOf deviceSize).length = deviceSize / granularity := by
  rw [chunksOf, List.length_map, List.length_range]

theorem chunksOf_nodup (deviceSize : Nat) : (chunksOf deviceSize).Nodup := by
  refine List.Nodup.map ?_ List.nodup_range
  intro i j h
  exact Nat.eq_of_mul_eq_mul_right granularity_pos h

/-- There are no more areas than chunks. -/
theorem length_le_chunks {deviceSize : Nat} {offsets : List Nat} (hNodup : offsets.Nodup)
    (hAligned : AreasAligned deviceSize offsets) : offsets.length ≤ deviceSize / granularity := by
  rw [← length_chunksOf]
  exact (List.subperm_of_subset hNodup fun o ho => mem_chunksOf.mpr (hAligned o ho)).length_le

/-- When there are fewer, some chunk is free. -/
theorem exists_free_chunk {deviceSize : Nat} {offsets : List Nat}
    (h : offsets.length < deviceSize / granularity) :
    ∃ p, granularity ∣ p ∧ p + granularity ≤ deviceSize ∧ p ∉ offsets := by
  by_contra hNone
  have hSub : chunksOf deviceSize ⊆ offsets := by
    intro p hp
    by_contra hFree
    exact hNone ⟨p, (mem_chunksOf.mp hp).1, (mem_chunksOf.mp hp).2, hFree⟩
  have := (List.subperm_of_subset (chunksOf_nodup deviceSize) hSub).length_le
  rw [length_chunksOf] at this
  omega

/-- A reservation that finds nothing had no whole chunk to reserve, or no free
one. -/
theorem reserveOffsets_ne_nil {deviceSize size : Nat} {areas : OrdMap Nat AllocId}
    (hAligned : AreasAligned deviceSize areas.keys) (hSize : granularity ≤ size)
    (hRoom : areas.keys.length < deviceSize / granularity) :
    reserveOffsets deviceSize areas size ≠ [] := by
  obtain ⟨p, hp, hIn, hFree⟩ := exists_free_chunk hRoom
  have hRun := contigRun_complete hSize hAligned (OrdMap_keys_sorted areas) hp hFree hIn
  rw [← List.length_pos_iff, reserveOffsets, runOffsets, List.length_map, List.length_range]
  exact Nat.div_pos hRun granularity_pos

-- ---------------------------------------------------------------------------
-- One call
-- ---------------------------------------------------------------------------

/-- What `reserve_memory` of `size` bytes makes of the state `s`: as many whole
chunks as were asked for and are free, in `new`, and nothing else. -/
structure Reserved (s : Shared) (c : VmId) (size : Nat) (s' : Shared) (new : List AllocId) :
    Prop where
  count : new.length =
    min (size / granularity) (s.deviceSize c / granularity - (s.allocatedAreas c).size)
  distinct : (new.map s'.offsetOf).Nodup
  created : ∀ x ∈ new, s.nextId ≤ x ∧ x < s'.nextId ∧ s'.alloc x = .new (s'.offsetOf x) c
  free : ∀ x ∈ new, granularity ∣ s'.offsetOf x ∧
    s'.offsetOf x + granularity ≤ s.deviceSize c ∧
    (s.allocatedAreas c).get? (s'.offsetOf x) = none
  areas : ∀ o x, (s'.allocatedAreas c).get? o = some x ↔
    (s.allocatedAreas c).get? o = some x ∨ x ∈ new ∧ s'.offsetOf x = o
  otherAreas : ∀ c', c' ≠ c → s'.allocatedAreas c' = s.allocatedAreas c'
  oldAllocs : ∀ x, x < s.nextId → s'.alloc x = s.alloc x
  nextId : s.nextId ≤ s'.nextId
  others : { s' with
    alloc := s.alloc, nextId := s.nextId, allocatedAreas := s.allocatedAreas } = s

theorem zip_ids (s : Shared) (c : VmId) (size : Nat) :
    ((s.newOffsets c size).zip (s.newIds c size)).map Prod.snd = s.newIds c size := by
  rw [List.map_snd_zip]
  simp [Shared.newIds]

/-- The new allocations are at the new offsets. -/
theorem mem_zip_iff {s : Shared} {c : VmId} {size o : Nat} {x : AllocId} :
    (o, x) ∈ (s.newOffsets c size).zip (s.newIds c size) ↔
      x ∈ s.newIds c size ∧ (s.reserveMemoryContig c size).offsetOf x = o := by
  have hAt : ∀ {o : Nat} {x : AllocId},
      (o, x) ∈ (s.newOffsets c size).zip (s.newIds c size) →
        x ∈ s.newIds c size ∧ (s.reserveMemoryContig c size).offsetOf x = o := by
    intro o x h
    obtain ⟨hLo, hHi, hGet, -⟩ := Shared.mem_zip_new h
    refine ⟨Shared.mem_newIds.mpr ⟨hLo, hHi⟩, ?_⟩
    rw [Shared.offsetOf, Shared.reserve_alloc_of_new ⟨hLo, hHi⟩]
    exact hGet
  refine ⟨hAt, ?_⟩
  rintro ⟨hx, ho⟩
  rw [← zip_ids] at hx
  obtain ⟨⟨o', x'⟩, hMem, hEq⟩ := List.mem_map.mp hx
  cases hEq
  rw [← ho, (hAt hMem).2]
  exact hMem

theorem map_offsetOf_newIds (s : Shared) (c : VmId) (size : Nat) :
    (s.newIds c size).map (s.reserveMemoryContig c size).offsetOf = s.newOffsets c size := by
  calc (s.newIds c size).map (s.reserveMemoryContig c size).offsetOf
      = ((s.newOffsets c size).zip (s.newIds c size)).map
          ((s.reserveMemoryContig c size).offsetOf ∘ Prod.snd) := by
        rw [← List.map_map, zip_ids]
    _ = ((s.newOffsets c size).zip (s.newIds c size)).map Prod.fst :=
        List.map_congr_left fun e he => (mem_zip_iff.mp he).2
    _ = s.newOffsets c size := s.zip_keys c size

/-- The entries `reserve_memory_contig` adds. -/
theorem get?_reserve_iff {s : Shared} {c : VmId} {size : Nat}
    (hAligned : AreasAligned (s.deviceSize c) (s.allocatedAreas c).keys) {o : Nat}
    {x : AllocId} :
    ((s.reserveMemoryContig c size).allocatedAreas c).get? o = some x ↔
      (s.allocatedAreas c).get? o = some x ∨
        x ∈ s.newIds c size ∧ (s.reserveMemoryContig c size).offsetOf x = o := by
  have hFree : o ∈ s.newOffsets c size → (s.allocatedAreas c).get? o = none :=
    fun ho => (reserveOffsets_free hAligned ho).2.2
  rw [← mem_zip_iff]
  show ((Function.update s.allocatedAreas c _) c).get? o = some x ↔ _
  rw [Function.update_self, OrdMap.get?_insertAll_eq_some (s.zip_keys_nodup c size), s.zip_keys]
  constructor
  · rintro (hNew | ⟨-, hOld⟩)
    · exact Or.inr hNew
    · exact Or.inl hOld
  · rintro (hOld | hNew)
    · refine Or.inr ⟨fun ho => ?_, hOld⟩
      rw [hFree ho] at hOld
      cases hOld
    · exact Or.inl hNew

theorem length_newIds (s : Shared) (c : VmId) (size : Nat) :
    (s.newIds c size).length = (s.newOffsets c size).length := List.length_range'

theorem length_keys {m : OrdMap Nat AllocId} : m.keys.length = m.size := List.length_map ..

/-- The areas after a reservation are aligned as before. -/
theorem areasAligned_reserve {s : Shared} {c : VmId} {size : Nat}
    (hAligned : AreasAligned (s.deviceSize c) (s.allocatedAreas c).keys) :
    AreasAligned (s.deviceSize c) ((s.reserveMemoryContig c size).allocatedAreas c).keys := by
  intro o ho
  obtain ⟨x, hx⟩ := OrdMap.mem_keys_iff.mp ho
  rcases (get?_reserve_iff hAligned).mp hx with hOld | hNew
  · exact hAligned o (OrdMap.mem_keys_iff.mpr ⟨x, hOld⟩)
  · have hMem := (Shared.mem_zip_new (mem_zip_iff.mpr hNew)).2.2.2
    have hFree := reserveOffsets_free hAligned hMem
    exact ⟨hFree.1, hFree.2.1⟩

/-- It makes the map longer by the new allocations. -/
theorem size_reserve {s : Shared} {c : VmId} {size : Nat}
    (hAligned : AreasAligned (s.deviceSize c) (s.allocatedAreas c).keys) :
    ((s.reserveMemoryContig c size).allocatedAreas c).size =
      (s.allocatedAreas c).size + (s.newOffsets c size).length := by
  show ((Function.update s.allocatedAreas c _) c).size = _
  rw [Function.update_self, OrdMap.size_insertAll (s.zip_keys_nodup c size), List.length_zip,
    length_newIds, min_self]
  intro e he
  exact (reserveOffsets_free hAligned (Shared.mem_zip_new he).2.2.2).2.2

-- ---------------------------------------------------------------------------
-- The loop
-- ---------------------------------------------------------------------------

/-- Finding new offsets stays in range. -/
theorem newOffsets64_eq {s : Shared} {c : VmId} (hDevice : s.deviceSize c < 2 ^ 64)
    (hAligned : AreasAligned (s.deviceSize c) (s.allocatedAreas c).keys) (size : Nat) :
    s.newOffsets64 c size = some (s.newOffsets c size) := by
  rw [Shared.newOffsets64, contigRun64_eq hDevice hAligned (OrdMap_keys_sorted _)]
  rfl

/-- An iteration reserves what `reserve_memory_contig` finds. -/
theorem reserveRound64_eq {s : Shared} {c : VmId} (hDevice : s.deviceSize c < 2 ^ 64)
    (hAligned : AreasAligned (s.deviceSize c) (s.allocatedAreas c).keys) {remaining : Nat}
    (hSize : remaining < 2 ^ 64) (allocations : List AllocId) :
    reserveRound64 c s remaining allocations =
      if remaining = 0 ∨ s.newOffsets c remaining = [] then .finished
      else .next (s.reserveMemoryContig c remaining)
        (remaining - (s.newOffsets c remaining).length * granularity)
        (allocations ++ s.newIds c remaining) := by
  have hLen := length_reserveOffsets_le (s.deviceSize c) (s.allocatedAreas c) remaining
  have hLen : (s.newOffsets c remaining).length * granularity ≤ remaining := hLen
  unfold reserveRound64
  rw [newOffsets64_eq hDevice hAligned]
  simp only
  rw [mul64_sub64 hLen hSize]
  have hCreate : s.createAt c (s.newOffsets c remaining) = s.reserveMemoryContig c remaining :=
    rfl
  have hIds : List.range' s.nextId (s.newOffsets c remaining).length = s.newIds c remaining := rfl
  rw [hCreate, hIds]
  by_cases hZero : remaining = 0
  · rw [if_neg (by omega), if_pos (Or.inl hZero)]
  · rw [if_pos (by omega)]
    by_cases hNil : s.newOffsets c remaining = []
    · rw [if_pos hNil, if_pos (Or.inr hNil)]
    · rw [if_neg hNil, if_neg (by tauto)]

/-- Nothing is left to reserve, or nothing is free. -/
theorem Reserved.nothing {s : Shared} {c : VmId} {size : Nat}
    (hAligned : AreasAligned (s.deviceSize c) (s.allocatedAreas c).keys)
    (h : size = 0 ∨ s.newOffsets c size = []) : Reserved s c size s [] where
  count := by
    rw [List.length_nil]
    rcases Nat.lt_or_ge size granularity with hLt | hGe
    · rw [Nat.div_eq_of_lt hLt, Nat.zero_min]
    · have hFull : s.deviceSize c / granularity ≤ (s.allocatedAreas c).size := by
        rw [← length_keys]
        refine Nat.le_of_not_lt fun hRoom => ?_
        rcases h with rfl | hNil
        · exact absurd granularity_pos (Nat.not_lt.mpr hGe)
        · exact reserveOffsets_ne_nil hAligned hGe hRoom hNil
      rw [Nat.sub_eq_zero_of_le hFull, Nat.min_zero]
  distinct := List.nodup_nil
  created x hx := by cases hx
  free x hx := by cases hx
  areas o x := by simp
  otherAreas _ _ := rfl
  oldAllocs _ _ := rfl
  nextId := Nat.le_refl _
  others := rfl

/-- What one reservation takes, the next ones cannot: both together take the
smaller of what is asked and what is free. -/
theorem count_step {g size k chunks used : Nat} (hg : 0 < g) (hLen : k * g ≤ size)
    (hFull : used + k ≤ chunks) :
    k + min ((size - k * g) / g) (chunks - (used + k)) = min (size / g) (chunks - used) := by
  have hk : k ≤ size / g := (Nat.le_div_iff_mul_le hg).mpr hLen
  have hDiv : (size - k * g) / g = size / g - k := by
    rw [Nat.mul_comm, Nat.sub_mul_div]
  rw [hDiv]
  omega

/-- What one call takes, followed by what the rest of the loop takes. -/
theorem Reserved.step {s s' : Shared} {c : VmId} {size : Nat} {new : List AllocId}
    (hAligned : AreasAligned (s.deviceSize c) (s.allocatedAreas c).keys)
    (h : Reserved (s.reserveMemoryContig c size) c
      (size - (s.newOffsets c size).length * granularity) s' new) :
    Reserved s c size s' (s.newIds c size ++ new) := by
  have hLen : (s.newOffsets c size).length * granularity ≤ size :=
    length_reserveOffsets_le (s.deviceSize c) (s.allocatedAreas c) size
  have hAfter : AreasAligned (s.deviceSize c)
      ((s.reserveMemoryContig c size).allocatedAreas c).keys := areasAligned_reserve hAligned
  have hFull := length_le_chunks (OrdMap.keys_nodup _) hAfter
  rw [length_keys, size_reserve hAligned] at hFull
  have hNextId : (s.reserveMemoryContig c size).nextId = s.nextId + (s.newOffsets c size).length :=
    rfl
  -- the first allocations are not touched any more
  have hAlloc : ∀ x ∈ s.newIds c size, s'.alloc x = (s.reserveMemoryContig c size).alloc x :=
    fun x hx => h.oldAllocs x (Shared.mem_newIds.mp hx).2
  have hOffset : ∀ x ∈ s.newIds c size,
      s'.offsetOf x = (s.reserveMemoryContig c size).offsetOf x := by
    intro x hx
    rw [Shared.offsetOf, hAlloc x hx, Shared.offsetOf]
  have hMem : ∀ x ∈ s.newIds c size, s'.offsetOf x ∈ s.newOffsets c size := by
    intro x hx
    rw [hOffset x hx]
    exact (Shared.mem_zip_new (mem_zip_iff.mpr ⟨hx, rfl⟩)).2.2.2
  refine ⟨?_, ?_, ?_, ?_, ?_, ?_, ?_, ?_, ?_⟩
  · -- count
    have hCount := h.count
    rw [size_reserve hAligned] at hCount
    rw [List.length_append, length_newIds, hCount]
    exact count_step granularity_pos hLen hFull
  · -- distinct
    rw [List.map_append, List.nodup_append]
    refine ⟨?_, h.distinct, ?_⟩
    · rw [List.map_congr_left hOffset, map_offsetOf_newIds]
      exact reserveOffsets_nodup ..
    · intro a ha b hb hab
      obtain ⟨x, hx, rfl⟩ := List.mem_map.mp ha
      obtain ⟨y, hy, rfl⟩ := List.mem_map.mp hb
      have hTaken := (get?_reserve_iff hAligned).mpr (Or.inr ⟨hx, rfl⟩)
      rw [← hOffset x hx, hab, (h.free y hy).2.2] at hTaken
      cases hTaken
  · -- created
    intro x hx
    rcases List.mem_append.mp hx with hx | hx
    · obtain ⟨hLo, hHi⟩ := Shared.mem_newIds.mp hx
      refine ⟨hLo, lt_of_lt_of_le hHi h.nextId, ?_⟩
      rw [hAlloc x hx, hOffset x hx, Shared.offsetOf, Shared.reserve_alloc_of_new ⟨hLo, hHi⟩]
      rfl
    · obtain ⟨hLo, hHi, hNew⟩ := h.created x hx
      exact ⟨le_trans (Nat.le_add_right ..) hLo, hHi, hNew⟩
  · -- free
    intro x hx
    rcases List.mem_append.mp hx with hx | hx
    · exact reserveOffsets_free hAligned (hMem x hx)
    · obtain ⟨hAl, hIn, hFree⟩ := h.free x hx
      refine ⟨hAl, hIn, ?_⟩
      by_contra hOld
      obtain ⟨y, hy⟩ := Option.ne_none_iff_exists'.mp hOld
      rw [(get?_reserve_iff hAligned).mpr (Or.inl hy)] at hFree
      cases hFree
  · -- areas
    intro o x
    rw [h.areas, get?_reserve_iff hAligned, List.mem_append, or_assoc]
    refine or_congr Iff.rfl ?_
    rw [or_and_right]
    refine or_congr ?_ Iff.rfl
    refine and_congr_right fun hx => ?_
    rw [hOffset x hx]
  · -- otherAreas
    intro c' hc
    rw [h.otherAreas c' hc]
    exact Function.update_of_ne hc _ _
  · -- oldAllocs
    intro x hx
    rw [h.oldAllocs x (lt_of_lt_of_le hx (Nat.le_add_right ..)), Shared.reserve_alloc_of_lt hx]
  · exact le_trans (Nat.le_add_right ..) h.nextId
  · -- others
    have hOthers := congrArg (fun t : Shared => { t with
      alloc := s.alloc, nextId := s.nextId, allocatedAreas := s.allocatedAreas }) h.others
    exact hOthers

/-- The loop ends without an overflow and reserves all it can. -/
theorem reserveMemory64_reserves {s : Shared} {c : VmId} (hDevice : s.deviceSize c < 2 ^ 64)
    (hAligned : AreasAligned (s.deviceSize c) (s.allocatedAreas c).keys) {size : Nat}
    (hSize : size < 2 ^ 64) (allocations : List AllocId) :
    ∃ s' new, reserveMemory64 c s size allocations = some (s', allocations ++ new) ∧
      Reserved s c size s' new := by
  induction size using Nat.strongRecOn generalizing s allocations with
  | ind size ih =>
    have hRound := reserveRound64_eq hDevice hAligned hSize allocations
    by_cases hStop : size = 0 ∨ s.newOffsets c size = []
    · refine ⟨s, [], ?_, .nothing hAligned hStop⟩
      rw [if_pos hStop] at hRound
      rw [reserveMemory64]
      split
      · rename_i h
        rw [hRound] at h
        cases h
      · rw [List.append_nil]
      · rename_i h
        rw [hRound] at h
        cases h
    · rw [if_neg hStop] at hRound
      have hLt := reserveRound64_lt hRound
      obtain ⟨s', new, hRun, hReserved⟩ := ih _ hLt (s := s.reserveMemoryContig c size) hDevice
        (areasAligned_reserve hAligned) (lt_trans hLt hSize) (allocations ++ s.newIds c size)
      refine ⟨s', s.newIds c size ++ new, ?_, hReserved.step hAligned⟩
      rw [reserveMemory64]
      split
      · rename_i h
        rw [hRound] at h
        cases h
      · rename_i h
        rw [hRound] at h
        cases h
      · rename_i h
        rw [hRound] at h
        cases h
        rw [hRun, List.append_assoc]

-- ---------------------------------------------------------------------------
-- The thread
-- ---------------------------------------------------------------------------

/-- Where a request goes with what it reserved. -/
def afterReserve (rsvd : List AllocId) : RequestPc :=
  if rsvd = [] then .done false else .allocate (.start rsvd) rsvd

/-- The thread of a request that runs alone makes the iterations of
`reserveMemory64`. -/
theorem reserve_alone {s s' : Shared} {c : VmId} (hDevice : s.deviceSize c < 2 ^ 64)
    (hAligned : AreasAligned (s.deviceSize c) (s.allocatedAreas c).keys)
    (hLock : s.consumerLock c = none) {size : Nat} (hSize : size < 2 ^ 64)
    {rsvd all : List AllocId} (h : reserveMemory64 c s size rsvd = some (s', all)) (tid : Tid) :
    ∃ n, ∀ chs : List Choice, chs.length = n →
      alone Op.exec (Request.next tid) chs (s, ⟨c, .reserve size rsvd⟩) =
        some (s', ⟨c, afterReserve all⟩) := by
  induction size using Nat.strongRecOn generalizing s rsvd with
  | ind size ih =>
    have hRound := reserveRound64_eq hDevice hAligned hSize rsvd
    have hFree : ¬ (size > 0 ∧ s.consumerLock c ≠ none) := fun hBusy => hBusy.2 hLock
    rw [reserveMemory64] at h
    by_cases hStop : size = 0 ∨ s.newOffsets c size = []
    · rw [if_pos hStop] at hRound
      have hNo : ¬ (size > 0 ∧ s.newOffsets c size ≠ []) := by
        rintro ⟨hPos, hNe⟩
        rcases hStop with rfl | hNil
        · exact absurd hPos (Nat.lt_irrefl 0)
        · exact hNe hNil
      split at h
      · cases h
      · refine ⟨1, fun chs hLen => ?_⟩
        obtain ⟨ch, rfl⟩ := List.length_eq_one_iff.mp hLen
        have hNext : Request.next tid s ⟨c, .reserve size rsvd⟩ ch =
            some (.nop, ⟨c, afterReserve rsvd⟩) := by
          rw [Request.next_reserve, if_neg hFree, if_neg hNo, afterReserve]
          split <;> rfl
        rw [alone_cons hNext]
        cases h
        rfl
      · rename_i hMore
        rw [hRound] at hMore
        cases hMore
    · rw [if_neg hStop] at hRound
      have hYes : size > 0 ∧ s.newOffsets c size ≠ [] := by
        refine ⟨Nat.pos_of_ne_zero fun hZero => hStop (Or.inl hZero), fun hNil => hStop (Or.inr hNil)⟩
      have hLt := reserveRound64_lt hRound
      split at h
      · cases h
      · rename_i hEnd
        rw [hRound] at hEnd
        cases hEnd
      · rename_i hNextRound
        rw [hRound] at hNextRound
        cases hNextRound
        obtain ⟨n, hn⟩ := ih _ hLt (s := s.reserveMemoryContig c size) hDevice
          (areasAligned_reserve hAligned) hLock (lt_trans hLt hSize) h
        refine ⟨n + 1, fun chs hLen => ?_⟩
        obtain ⟨ch, rest, rfl⟩ := List.exists_cons_of_length_eq_add_one hLen
        have hNext := Request.next_reserve tid s ch c size rsvd
        rw [if_neg hFree, if_pos hYes] at hNext
        rw [alone_cons hNext]
        exact hn rest (by simpa using hLen)

-- ---------------------------------------------------------------------------
-- Every reachable map
-- ---------------------------------------------------------------------------

/-- The maps that reservations and removals make of the empty one. -/
inductive ReachableAreas (deviceSize : Nat) : OrdMap Nat AllocId → Prop
  | empty : ReachableAreas deviceSize .empty
  | reserve {areas : OrdMap Nat AllocId} (size : Nat) {ids : List AllocId} :
      ReachableAreas deviceSize areas →
      ids.length = (reserveOffsets deviceSize areas size).length →
      ReachableAreas deviceSize (areas.insertAll ((reserveOffsets deviceSize areas size).zip ids))
  | remove {areas : OrdMap Nat AllocId} (offsets : List Nat) :
      ReachableAreas deviceSize areas → ReachableAreas deviceSize (areas.eraseAll offsets)

/-- Maps that reservations and releases make are aligned. -/
theorem ReachableAreas.aligned {deviceSize : Nat} {areas : OrdMap Nat AllocId}
    (h : ReachableAreas deviceSize areas) : AreasAligned deviceSize areas.keys := by
  induction h with
  | empty => exact fun o ho => absurd ho List.not_mem_nil
  | @reserve areas size ids _ hLen ih =>
    have hKeys : ((reserveOffsets deviceSize areas size).zip ids).map Prod.fst =
        reserveOffsets deviceSize areas size := List.map_fst_zip (by omega)
    have hNodup : (((reserveOffsets deviceSize areas size).zip ids).map Prod.fst).Nodup := by
      rw [hKeys]
      exact reserveOffsets_nodup ..
    intro o ho
    obtain ⟨x, hx⟩ := OrdMap.mem_keys_iff.mp ho
    rcases (OrdMap.get?_insertAll_eq_some hNodup).mp hx with hNew | ⟨-, hOld⟩
    · have hMem : o ∈ reserveOffsets deviceSize areas size := by
        rw [← hKeys]
        exact List.mem_map.mpr ⟨_, hNew, rfl⟩
      have hFree := reserveOffsets_free ih hMem
      exact ⟨hFree.1, hFree.2.1⟩
    · exact ih o (OrdMap.mem_keys_iff.mpr ⟨x, hOld⟩)
  | @remove areas offsets _ ih =>
    intro o ho
    obtain ⟨x, hx⟩ := OrdMap.mem_keys_iff.mp ho
    rw [OrdMap.get?_eraseAll] at hx
    split at hx
    · cases hx
    · exact ih o (OrdMap.mem_keys_iff.mpr ⟨x, hx⟩)

/-- **Reservation is complete and in bounds.** From every map that
reservations and removals make of the empty one, `reserve_memory` of any size
ends without an overflow and returns as many new allocations as there are
whole chunks in the size and free chunks in the device, at distinct free
aligned offsets inside it; the map gains exactly their entries. The thread of
a request that runs alone does just this. -/
theorem reserve_memory_complete {s : Shared} {c : VmId}
    (h : ReachableAreas (s.deviceSize c) (s.allocatedAreas c))
    (hDevice : s.deviceSize c < 2 ^ 64) {size : Nat} (hSize : size < 2 ^ 64) :
    ∃ s' new, reserveMemory64 c s size [] = some (s', new) ∧ Reserved s c size s' new ∧
      ∀ tid, s.consumerLock c = none → ∃ n, ∀ chs : List Choice, chs.length = n →
        alone Op.exec (Request.next tid) chs (s, ⟨c, .reserve size []⟩) =
          some (s', ⟨c, afterReserve new⟩) := by
  obtain ⟨s', new, hRun, hReserved⟩ := reserveMemory64_reserves hDevice h.aligned hSize []
  rw [List.nil_append] at hRun
  exact ⟨s', new, hRun, hReserved, fun tid hLock =>
    reserve_alone hDevice h.aligned hLock hSize hRun tid⟩

/-- All four chunks reserved, the second and the fourth given up again. -/
def demoFragments : OrdMap Nat AllocId :=
  (OrdMap.empty.insertAll ((reserveOffsets (4 * granularity + 5) .empty (4 * granularity)).zip
    [1, 2, 3, 4])).eraseAll [granularity, 3 * granularity]

/-- The fragmented map is made by reservations and one release. -/
theorem demoFragments_reachable : ReachableAreas (4 * granularity + 5) demoFragments :=
  .remove _ (.reserve _ .empty (by decide +kernel))

/-- VM 1 with a DCD that is no whole number of chunks. -/
def demoFragmented : Shared :=
  { initShared (fun v => ⟨v, some (4 * granularity + 5)⟩) demoDonor with
    allocatedAreas := fun _ => demoFragments
    nextId := 5 }

/-- Of three chunks asked for, both free ones are reserved. -/
theorem reserve_memory_complete_demo :
    ∃ s' new, reserveMemory64 1 demoFragmented (3 * granularity) [] = some (s', new) ∧
      new.length = 2 := by
  obtain ⟨s', new, hRun, hReserved, -⟩ :=
    @reserve_memory_complete demoFragmented 1 demoFragments_reachable (by decide)
      (3 * granularity) (by decide)
  refine ⟨s', new, hRun, ?_⟩
  rw [hReserved.count]
  decide +kernel

end EphMemory.Orchestrator
