import EphMemory.Orchestrator.Sections

/-!
# Orchestrator — the gap search

What `reserve_memory_contig` hands out is free. The search keeps the largest
gap seen so far; a gap lies between two neighbouring areas, so no area starts
inside it, whatever the scan does afterwards.

* `AreasAligned` — the areas are whole chunks inside the device;
* `GapScan.Sound` — what the scan knows about the gap it keeps;
* `reserveOffsets_free` — every offset reserved is aligned, inside the device
  and not yet a key of the map;
* `reserveOffsets_nodup` — no offset is reserved twice;
* `length_reserveOffsets_le` — no more is reserved than was asked for.
-/

namespace EphMemory.Orchestrator

open EphMemory.Lib

/-- The areas of a device of `deviceSize` bytes: aligned and inside it. -/
def AreasAligned (deviceSize : Nat) (offsets : List Nat) : Prop :=
  ∀ o ∈ offsets, granularity ∣ o ∧ o + granularity ≤ deviceSize

/-- No area starts inside `[start, start + len)`, and none reaches into it. -/
def GapFree (offsets : List Nat) (start len : Nat) : Prop :=
  ∀ o ∈ offsets, o + granularity ≤ start ∨ start + len ≤ o

/-- Different multiples are a granule apart. -/
theorem add_granularity_le_of_dvd {a b : Nat} (ha : granularity ∣ a) (hb : granularity ∣ b)
    (h : a < b) : a + granularity ≤ b := by
  obtain ⟨i, rfl⟩ := ha
  obtain ⟨j, rfl⟩ := hb
  have hij : i < j := Nat.lt_of_mul_lt_mul_left h
  calc granularity * i + granularity = granularity * (i + 1) := by ring
    _ ≤ granularity * j := Nat.mul_le_mul_left _ hij

namespace GapScan

/-- What the scan knows with `todo` left to visit: the gap it keeps is free
and inside the device, and everything visited ends at `lastRegionEnd`. -/
structure Sound (deviceSize : Nat) (offsets todo : List Nat) (g : GapScan) : Prop where
  gapFree : GapFree offsets g.largestGapOffset g.largestGap
  gapAligned : granularity ∣ g.largestGapOffset
  gapInside : g.largestGapOffset + g.largestGap ≤ deviceSize
  visited : ∀ o ∈ offsets, o ∈ todo ∨ o + granularity ≤ g.lastRegionEnd
  ahead : ∀ o ∈ todo, g.lastRegionEnd ≤ o
  endAligned : granularity ∣ g.lastRegionEnd
  endInside : g.lastRegionEnd ≤ deviceSize
  first : g.firstRegion = true →
    g.largestGap = 0 ∧ g.largestGapOffset = 0 ∧ g.lastRegionEnd = 0

/-- Before the first area the two branches of the scan compute the same gap. -/
theorem note_eq {g : GapScan} (o : Nat) (h : g.firstRegion = true →
    g.largestGap = 0 ∧ g.largestGapOffset = 0 ∧ g.lastRegionEnd = 0) :
    g.note o = { g with
      firstRegion := false
      largestGap := max g.largestGap (o - g.lastRegionEnd)
      largestGapOffset :=
        if o - g.lastRegionEnd > g.largestGap then g.lastRegionEnd else g.largestGapOffset } := by
  unfold note
  cases hf : g.firstRegion with
  | true =>
    obtain ⟨h1, h2, h3⟩ := h hf
    by_cases ho : o > 0
    · simp [h1, h3, ho]
    · have : o = 0 := by omega
      simp [h1, h2, h3, this]
  | false =>
    by_cases hgap : o - g.lastRegionEnd > g.largestGap
    · simp [hgap, max_eq_right (le_of_lt hgap), ← hf]
    · simp [hgap, max_eq_left (not_lt.mp hgap), ← hf]

/-- Visiting the next area keeps the scan sound: the gap before it is free,
since the areas are in order. -/
theorem Sound.note {deviceSize o : Nat} {offsets rest : List Nat} {g : GapScan}
    (h : Sound deviceSize offsets (o :: rest) g) (hAligned : AreasAligned deviceSize offsets)
    (hMem : o ∈ offsets) (hSorted : ∀ o' ∈ rest, o < o') :
    GapFree offsets (g.note o).largestGapOffset (g.note o).largestGap ∧
      granularity ∣ (g.note o).largestGapOffset ∧
      (g.note o).largestGapOffset + (g.note o).largestGap ≤ deviceSize ∧
      (g.note o).firstRegion = false := by
  have hInside := (hAligned o hMem).2
  have hAhead := h.ahead o (List.mem_cons_self ..)
  rw [note_eq o h.first]
  by_cases hgap : o - g.lastRegionEnd > g.largestGap
  · have hLast : g.lastRegionEnd + (o - g.lastRegionEnd) = o := by omega
    simp only [hgap, if_true, max_eq_right (le_of_lt hgap), hLast]
    refine ⟨fun o' ho' => ?_, h.endAligned, by omega, trivial⟩
    rcases h.visited o' ho' with hin | hin
    · rcases List.mem_cons.mp hin with rfl | hin
      · right; omega
      · right
        have := hSorted o' hin
        omega
    · exact Or.inl hin
  · simp only [hgap, if_false, max_eq_left (not_lt.mp hgap)]
    exact ⟨h.gapFree, h.gapAligned, h.gapInside, trivial⟩

/-- Moving on to the next area keeps the scan sound. -/
theorem Sound.next {deviceSize o : Nat} {offsets rest : List Nat} {g : GapScan}
    (h : Sound deviceSize offsets (o :: rest) g) (hAligned : AreasAligned deviceSize offsets)
    (hSub : ∀ o' ∈ o :: rest, o' ∈ offsets) (hSorted : (o :: rest).Pairwise (· < ·)) :
    Sound deviceSize offsets rest { g.note o with lastRegionEnd := o + granularity } := by
  obtain ⟨hLt, -⟩ := List.pairwise_cons.mp hSorted
  have hMem := hSub o (List.mem_cons_self ..)
  have hAhead := h.ahead o (List.mem_cons_self ..)
  obtain ⟨hFree, hAl, hIn, hFirst⟩ := h.note hAligned hMem hLt
  refine ⟨hFree, hAl, hIn, fun o' ho' => ?_, fun o' ho' => ?_, ?_, (hAligned o hMem).2,
    fun hf => ?_⟩
  · rcases h.visited o' ho' with hin | hin
    · rcases List.mem_cons.mp hin with rfl | hin
      · exact Or.inr (le_refl _)
      · exact Or.inl hin
    · right
      show o' + granularity ≤ o + granularity
      omega
  · exact add_granularity_le_of_dvd (hAligned o hMem).1
      (hAligned o' (hSub o' (List.mem_cons_of_mem _ ho'))).1 (hLt o' ho')
  · exact Nat.dvd_add (hAligned o hMem).1 (Nat.dvd_refl _)
  · simp [hFirst] at hf

/-- Whatever the scan notes is free. -/
theorem scan_sound {deviceSize : Nat} (size : Nat) {offsets : List Nat}
    (hAligned : AreasAligned deviceSize offsets) :
    ∀ (todo : List Nat) (g : GapScan), (∀ o ∈ todo, o ∈ offsets) →
      todo.Pairwise (· < ·) → Sound deviceSize offsets todo g →
      GapFree offsets (g.scan size todo).largestGapOffset (g.scan size todo).largestGap ∧
      granularity ∣ (g.scan size todo).largestGapOffset ∧
      (g.scan size todo).largestGapOffset + (g.scan size todo).largestGap ≤ deviceSize ∧
      ((g.scan size todo).brokeEarly = g.brokeEarly →
        (g.brokeEarly = false → Sound deviceSize offsets [] (g.scan size todo))) := by
  intro todo
  induction todo with
  | nil =>
    intro g _ _ h
    exact ⟨h.gapFree, h.gapAligned, h.gapInside, fun _ _ => h⟩
  | cons o rest ih =>
    intro g hSub hSorted h
    obtain ⟨hLt, hRest⟩ := List.pairwise_cons.mp hSorted
    have hMem := hSub o (List.mem_cons_self ..)
    obtain ⟨hFree, hAl, hIn, -⟩ := h.note hAligned hMem hLt
    rw [scan]
    split
    · refine ⟨hFree, hAl, hIn, fun hBroke hFalse => ?_⟩
      rw [hFalse] at hBroke
      cases hBroke
    · have hBroke : (g.note o).brokeEarly = g.brokeEarly := by
        rw [note_eq o h.first]
      have := ih _ (fun o' ho' => hSub o' (List.mem_cons_of_mem _ ho')) hRest
        (h.next hAligned hSub hSorted)
      rw [← hBroke]
      exact this

/-- Before the scan nothing is noted. -/
theorem start_sound {deviceSize : Nat} {offsets : List Nat} :
    Sound deviceSize offsets offsets start where
  gapFree o _ := Or.inr (by simp [start])
  gapAligned := Nat.dvd_zero _
  gapInside := Nat.zero_le _
  visited o ho := Or.inl ho
  ahead o _ := Nat.zero_le _
  endAligned := Nat.dvd_zero _
  endInside := Nat.zero_le _
  first _ := ⟨rfl, rfl, rfl⟩

/-- The gap the search settles on is free, aligned and inside the device. -/
theorem finish_sound {deviceSize : Nat} (size : Nat) {offsets : List Nat}
    (hAligned : AreasAligned deviceSize offsets) (hSorted : offsets.Pairwise (· < ·)) :
    let g := (start.scan size offsets).finish deviceSize
    GapFree offsets g.largestGapOffset g.largestGap ∧ granularity ∣ g.largestGapOffset ∧
      g.largestGapOffset + g.largestGap ≤ deviceSize := by
  obtain ⟨hFree, hAl, hIn, hEnd⟩ :=
    scan_sound size hAligned offsets start (fun _ h => h) hSorted start_sound
  intro g
  by_cases hTake : deviceSize - (start.scan size offsets).lastRegionEnd >
      (start.scan size offsets).largestGap ∧ (start.scan size offsets).brokeEarly = false
  · have hg : g = { start.scan size offsets with
        largestGap := deviceSize - (start.scan size offsets).lastRegionEnd
        largestGapOffset := (start.scan size offsets).lastRegionEnd } := by
      show finish _ _ = _
      rw [finish, if_pos (by simp [hTake.1, hTake.2])]
    have hSound := hEnd hTake.2 rfl
    rw [hg]
    refine ⟨fun o ho => ?_, hSound.endAligned, ?_⟩
    · rcases hSound.visited o ho with hin | hin
      · cases hin
      · exact Or.inl hin
    · have := hSound.endInside
      show (start.scan size offsets).lastRegionEnd +
        (deviceSize - (start.scan size offsets).lastRegionEnd) ≤ deviceSize
      omega
  · have hg : g = start.scan size offsets := by
      show finish _ _ = _
      rw [finish, if_neg (by simpa using hTake)]
    rw [hg]
    exact ⟨hFree, hAl, hIn⟩

end GapScan

-- ---------------------------------------------------------------------------
-- The run and its offsets
-- ---------------------------------------------------------------------------

/-- The run taken is free, starts at a chunk boundary and is inside the
device. -/
theorem contigRun_free {deviceSize : Nat} (size : Nat) {offsets : List Nat}
    (hAligned : AreasAligned deviceSize offsets) (hSorted : offsets.Pairwise (· < ·)) :
    GapFree offsets (contigRun deviceSize offsets size).1 (contigRun deviceSize offsets size).2 ∧
      granularity ∣ (contigRun deviceSize offsets size).1 ∧
      (contigRun deviceSize offsets size).1 + (contigRun deviceSize offsets size).2 ≤
        deviceSize := by
  have hNone : GapFree offsets 0 0 ∧ granularity ∣ 0 ∧ 0 + 0 ≤ deviceSize :=
    ⟨fun o _ => Or.inr (by omega), Nat.dvd_zero _, by omega⟩
  have hClamp : alignDown (if size > deviceSize then deviceSize else size) ≤ deviceSize := by
    refine le_trans (alignDown_le _) ?_
    split <;> omega
  unfold contigRun
  generalize alignDown (if size > deviceSize then deviceSize else size) = n at hClamp
  by_cases hn : n = 0
  · simpa only [hn, if_true] using hNone
  by_cases hEmpty : offsets = []
  · simp only [hn, hEmpty, if_true, if_false]
    exact ⟨fun o ho => absurd ho List.not_mem_nil, Nat.dvd_zero _, by omega⟩
  simp only [hn, hEmpty, if_false]
  obtain ⟨hFree, hAl, hIn⟩ := GapScan.finish_sound n hAligned hSorted
  set g := (GapScan.start.scan n offsets).finish deviceSize
  have hLen := alignDown_le g.largestGap
  by_cases hGap : alignDown g.largestGap = 0
  · simpa only [hGap, if_true] using hNone
  · simp only [hGap, if_false]
    refine ⟨fun o ho => (hFree o ho).imp id fun h => ?_, hAl, ?_⟩ <;> split <;> omega

theorem mem_runOffsets {start bytes o : Nat} (h : o ∈ runOffsets start bytes) :
    ∃ i, i < bytes / granularity ∧ o = start + i * granularity := by
  obtain ⟨i, hi, rfl⟩ := List.mem_map.mp h
  exact ⟨i, List.mem_range.mp hi, rfl⟩

theorem runOffsets_nodup (start bytes : Nat) : (runOffsets start bytes).Nodup := by
  refine List.Nodup.map ?_ List.nodup_range
  intro i j h
  have hij : i * granularity = j * granularity := by simpa using h
  exact Nat.eq_of_mul_eq_mul_right granularity_pos hij

theorem reserveOffsets_nodup (deviceSize : Nat) (areas : OrdMap Nat AllocId) (size : Nat) :
    (reserveOffsets deviceSize areas size).Nodup := runOffsets_nodup _ _

/-- The offsets of a map come in order. -/
theorem OrdMap_keys_sorted (m : OrdMap Nat AllocId) : m.keys.Pairwise (· < ·) := by
  rw [OrdMap.keys, List.pairwise_map]
  exact m.sorted

/-- Every offset reserved is aligned, inside the device and free. -/
theorem reserveOffsets_free {deviceSize size : Nat} {areas : OrdMap Nat AllocId}
    (hAligned : AreasAligned deviceSize areas.keys) {o : Nat}
    (ho : o ∈ reserveOffsets deviceSize areas size) :
    granularity ∣ o ∧ o + granularity ≤ deviceSize ∧ areas.get? o = none := by
  obtain ⟨hFree, hAl, hIn⟩ := contigRun_free size hAligned (OrdMap_keys_sorted areas)
  obtain ⟨i, hi, rfl⟩ := mem_runOffsets ho
  set start := (contigRun deviceSize areas.keys size).1
  set bytes := (contigRun deviceSize areas.keys size).2
  -- the i-th chunk ends inside the run
  have hEnd : i * granularity + granularity ≤ bytes := by
    calc i * granularity + granularity = (i + 1) * granularity := by ring
      _ ≤ bytes / granularity * granularity := Nat.mul_le_mul_right _ hi
      _ ≤ bytes := Nat.div_mul_le_self ..
  refine ⟨Nat.dvd_add hAl (Nat.dvd_mul_left ..), by omega, ?_⟩
  rw [OrdMap.get?_eq_none_iff]
  intro hKey
  have := granularity_pos
  rcases hFree _ hKey with h | h <;> omega

/-- A run is no longer than what was asked for. -/
theorem contigRun_le (deviceSize : Nat) (offsets : List Nat) (size : Nat) :
    (contigRun deviceSize offsets size).2 ≤ size := by
  have hClamp : alignDown (if size > deviceSize then deviceSize else size) ≤ size := by
    refine le_trans (alignDown_le _) ?_
    split <;> omega
  unfold contigRun
  generalize alignDown (if size > deviceSize then deviceSize else size) = n at hClamp
  by_cases hn : n = 0
  · simp only [hn, if_true]
    exact Nat.zero_le _
  by_cases hEmpty : offsets = []
  · simp only [hn, hEmpty, if_true, if_false]
    exact hClamp
  simp only [hn, hEmpty, if_false]
  split
  · exact Nat.zero_le _
  · show (if _ then _ else _) ≤ size
    split <;> omega

/-- No more is reserved than was asked for. -/
theorem length_reserveOffsets_le (deviceSize : Nat) (areas : OrdMap Nat AllocId) (size : Nat) :
    (reserveOffsets deviceSize areas size).length * granularity ≤ size := by
  unfold reserveOffsets runOffsets
  rw [List.length_map, List.length_range]
  exact le_trans (Nat.div_mul_le_self _ _) (contigRun_le deviceSize areas.keys size)

end EphMemory.Orchestrator
