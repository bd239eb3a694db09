import EphMemory.Lib.Tiling
import EphMemory.Orchestrator.Overflow

/-!
# Orchestrator — what an added extent is split into

`signal_add_dc` walks over the allocations an added extent covers, marks them
and reports what lies between them for release. The areas are aligned, so the
walk tiles the extent: every byte of it belongs to one marked allocation or to
one reported gap.

* `AlignedAreas` — the invariant of one `allocated_areas` map;
* `Piece`, `pieces` — the marked allocations and the gaps, in cursor order;
* `pieces_tiles` — they tile the extent;
* `released_iff` — the bytes it reports, without the cursor;
* `split_covered` — cutting an extent where an allocation starts or stops.
-/

namespace EphMemory.Orchestrator

open EphMemory.Lib

/-- Every area is filed under the `consumer_offset` of its allocation, starts
at a multiple of the granularity and ends below `2 ^ 64`. -/
structure AlignedAreas (offsetOf : AllocId → Nat) (areas : OrdMap Nat AllocId) : Prop where
  own : ∀ {o x}, areas.get? o = some x → offsetOf x = o
  aligned : ∀ {o x}, areas.get? o = some x → granularity ∣ o
  ends : ∀ {o x}, areas.get? o = some x → o + granularity < 2 ^ 64

/-- The invariant of the reachable states gives it for every consumer. -/
theorem AreasOk.alignedAreas {s : Shared} (h : AreasOk s) (hDevices : Devices64 s) (c : VmId) :
    AlignedAreas s.offsetOf (s.allocatedAreas c) where
  own hx := (h _ _ _ hx).2.2.1
  aligned hx := (h _ _ _ hx).2.2.2.1
  ends hx := lt_of_le_of_lt (h _ _ _ hx).2.2.2.2 (hDevices c)

/-- Aligned areas end in the 64-bit range. -/
theorem AlignedAreas.areas64 {offsetOf : AllocId → Nat} {areas : OrdMap Nat AllocId}
    (h : AlignedAreas offsetOf areas) : Areas64 offsetOf areas :=
  fun _ _ hx => ⟨h.own hx, h.ends hx⟩

/-- The extent covers the whole area of `x`. -/
def Extent.CoversArea (areas : OrdMap Nat AllocId) (e : Extent) (x : AllocId) : Prop :=
  ∃ o, areas.get? o = some x ∧ e.offset ≤ o ∧ o + granularity ≤ e.offset + e.len

/-- The byte `b` is inside the extent. -/
def Extent.HasByte (e : Extent) (b : Nat) : Prop := e.offset ≤ b ∧ b < e.offset + e.len

instance (e : Extent) (b : Nat) : Decidable (e.HasByte b) :=
  inferInstanceAs (Decidable (_ ∧ _))

/-- Some extent of the list has the byte. -/
def Released (gaps : List Extent) (b : Nat) : Prop := ∃ g ∈ gaps, g.HasByte b

/-- What `signal_add_dc` makes of an extent: allocations it marks and gaps it
reports. -/
inductive Piece where
  | marked (x : AllocId)
  | gap (g : Extent)
  deriving DecidableEq, Repr

def Piece.span (offsetOf : AllocId → Nat) : Piece → Span
  | .marked x => ⟨offsetOf x, offsetOf x + granularity⟩
  | .gap g => ⟨g.offset, g.offset + g.len⟩

def Piece.gap? : Piece → Option Extent
  | .marked _ => none
  | .gap g => some g

/-- The gap from the cursor to `stop`, if there is one. -/
def gapBefore (gapCursor stop : Nat) : List Piece :=
  if gapCursor < stop then [.gap ⟨gapCursor, stop - gapCursor⟩] else []

/-- The walk of `signal_add_dc` over the allocations of one extent. -/
def pieces (offsetOf : AllocId → Nat) (extentEnd : Nat) : Nat → List AllocId → List Piece
  | gapCursor, [] => gapBefore gapCursor extentEnd
  | gapCursor, x :: rest =>
    gapBefore gapCursor (offsetOf x) ++
      .marked x :: pieces offsetOf extentEnd (offsetOf x + granularity) rest

variable {offsetOf : AllocId → Nat} {areas : OrdMap Nat AllocId}

-- ---------------------------------------------------------------------------
-- The covered allocations
-- ---------------------------------------------------------------------------

/-- The search finds the areas the extent covers. -/
theorem mem_findCovered {e : Extent} {x : AllocId} :
    x ∈ findCoveredAllocations areas e.offset e.len ↔ e.CoversArea areas x := by
  constructor
  · intro hx
    obtain ⟨⟨o, y⟩, hMem, rfl⟩ := List.mem_map.mp hx
    obtain ⟨hEntry, hIn⟩ := List.mem_filter.mp hMem
    rw [Bool.and_eq_true, decide_eq_true_eq, decide_eq_true_eq] at hIn
    exact ⟨o, OrdMap.mem_entries_iff.mp hEntry, hIn.2⟩
  · rintro ⟨o, hx, hLo, hHi⟩
    have hPos := granularity_pos
    refine List.mem_map.mpr ⟨(o, x), List.mem_filter.mpr ⟨OrdMap.mem_entries_iff.mpr hx, ?_⟩, rfl⟩
    rw [Bool.and_eq_true, decide_eq_true_eq, decide_eq_true_eq]
    exact ⟨⟨hLo, by omega⟩, hLo, hHi⟩

/-- They come in offset order and do not overlap. -/
theorem findCovered_pairwise (h : AlignedAreas offsetOf areas) (offset size : Nat) :
    (findCoveredAllocations areas offset size).Pairwise fun x y =>
      offsetOf x + granularity ≤ offsetOf y := by
  unfold findCoveredAllocations
  rw [List.pairwise_map]
  refine (areas.sorted.filter _).imp_of_mem fun {a b} ha hb hLt => ?_
  have ha := OrdMap.mem_entries_iff.mp (List.mem_filter.mp ha).1
  have hb := OrdMap.mem_entries_iff.mp (List.mem_filter.mp hb).1
  rw [h.own ha, h.own hb]
  exact add_granularity_le_of_dvd (h.aligned ha) (h.aligned hb) hLt

-- ---------------------------------------------------------------------------
-- The walk over one extent
-- ---------------------------------------------------------------------------

/-- The gap fills the space up to the next area. -/
theorem gapBefore_tiles {lo hi : Nat} (h : lo ≤ hi) :
    Tiles lo ((gapBefore lo hi).map (Piece.span offsetOf)) hi := by
  unfold gapBefore
  split
  · rename_i hLt
    have hStop : lo + (hi - lo) = hi := by omega
    refine ⟨rfl, ?_, hStop⟩
    simpa only [Piece.span, hStop] using hLt
  · exact Nat.le_antisymm h (Nat.not_lt.mp ‹_›)

/-- Between the cursor and the end of the extent the walk leaves nothing out. -/
theorem pieces_tiles {extentEnd gapCursor : Nat} {covered : List AllocId}
    (hOrdered : covered.Pairwise fun x y => offsetOf x + granularity ≤ offsetOf y)
    (hIn : ∀ x ∈ covered, gapCursor ≤ offsetOf x ∧ offsetOf x + granularity ≤ extentEnd)
    (hCursor : gapCursor ≤ extentEnd) :
    Tiles gapCursor ((pieces offsetOf extentEnd gapCursor covered).map (Piece.span offsetOf))
      extentEnd := by
  induction covered generalizing gapCursor with
  | nil => exact gapBefore_tiles hCursor
  | cons x rest ih =>
    obtain ⟨hHead, hTail⟩ := List.pairwise_cons.mp hOrdered
    obtain ⟨hLo, hHi⟩ := hIn x (List.mem_cons_self ..)
    have hRest : Tiles (offsetOf x + granularity)
        ((pieces offsetOf extentEnd (offsetOf x + granularity) rest).map (Piece.span offsetOf))
        extentEnd :=
      ih hTail (fun y hy => ⟨hHead y hy, (hIn y (List.mem_cons_of_mem _ hy)).2⟩) hHi
    rw [pieces, List.map_append, List.map_cons]
    refine (gapBefore_tiles hLo).append ⟨rfl, ?_, hRest⟩
    exact Nat.lt_add_of_pos_right granularity_pos

theorem mem_gapBefore {lo hi : Nat} {x : AllocId} : .marked x ∉ gapBefore lo hi := by
  unfold gapBefore
  split
  · simp
  · simp

/-- The allocations that are marked are those that are covered. -/
theorem marked_mem_pieces {extentEnd gapCursor : Nat} {covered : List AllocId} {x : AllocId} :
    .marked x ∈ pieces offsetOf extentEnd gapCursor covered ↔ x ∈ covered := by
  induction covered generalizing gapCursor with
  | nil => simp [pieces, mem_gapBefore]
  | cons y rest ih =>
    rw [pieces, List.mem_append, List.mem_cons, List.mem_cons, ih, Piece.marked.injEq]
    simp [mem_gapBefore]

/-- The gaps of the walk are the ones `signal_add_dc` collects. -/
theorem gaps_pieces {extentEnd gapCursor : Nat} {covered : List AllocId} :
    (pieces offsetOf extentEnd gapCursor covered).filterMap Piece.gap? =
      gapsFrom offsetOf extentEnd gapCursor covered := by
  have hGap : ∀ lo hi : Nat, (gapBefore lo hi).filterMap Piece.gap? =
      if lo < hi then [⟨lo, hi - lo⟩] else [] := by
    intro lo hi
    unfold gapBefore
    split <;> rfl
  induction covered generalizing gapCursor with
  | nil => rw [pieces, hGap, gapsFrom]
  | cons x rest ih =>
    rw [pieces, List.filterMap_append, hGap, gapsFrom, List.filterMap_cons_none (by rfl), ih]

-- ---------------------------------------------------------------------------
-- One extent
-- ---------------------------------------------------------------------------

/-- The pieces of an extent. -/
def Extent.pieces (offsetOf : AllocId → Nat) (areas : OrdMap Nat AllocId) (e : Extent) :
    List Piece :=
  Orchestrator.pieces offsetOf (e.offset + e.len) e.offset
    (findCoveredAllocations areas e.offset e.len)

/-- An extent marks what it covers. -/
theorem Extent.marked_mem {e : Extent} {x : AllocId} :
    .marked x ∈ e.pieces offsetOf areas ↔ e.CoversArea areas x :=
  marked_mem_pieces.trans mem_findCovered

/-- They tile it. -/
theorem Extent.tiles (h : AlignedAreas offsetOf areas) (e : Extent) :
    Tiles e.offset ((e.pieces offsetOf areas).map (Piece.span offsetOf)) (e.offset + e.len) := by
  refine pieces_tiles (findCovered_pairwise h e.offset e.len) (fun x hx => ?_)
    (Nat.le_add_right ..)
  obtain ⟨o, ho, hIn⟩ := mem_findCovered.mp hx
  rw [h.own ho]
  exact hIn

/-- The gaps `signal_add_dc` reports for one extent. -/
def Extent.gaps (offsetOf : AllocId → Nat) (areas : OrdMap Nat AllocId) (e : Extent) :
    List Extent :=
  (e.pieces offsetOf areas).filterMap Piece.gap?

/-- The gaps are the other pieces. -/
theorem Extent.mem_gaps {e g : Extent} :
    g ∈ e.gaps offsetOf areas ↔ .gap g ∈ e.pieces offsetOf areas := by
  rw [Extent.gaps, List.mem_filterMap]
  constructor
  · rintro ⟨_ | g', hMem, hEq⟩
    · cases hEq
    · cases hEq
      exact hMem
  · intro hMem
    exact ⟨_, hMem, rfl⟩

/-- The byte is inside the area of an allocation the extent covers. -/
def Extent.Owned (offsetOf : AllocId → Nat) (areas : OrdMap Nat AllocId) (e : Extent)
    (b : Nat) : Prop :=
  ∃ x, e.CoversArea areas x ∧ offsetOf x ≤ b ∧ b < offsetOf x + granularity

/-- The released bytes of an extent are those of no allocation it covers. -/
theorem Extent.released_iff (h : AlignedAreas offsetOf areas) {e : Extent} {b : Nat} :
    Released (e.gaps offsetOf areas) b ↔ e.HasByte b ∧ ¬ e.Owned offsetOf areas b := by
  have hTiles := Extent.tiles h e
  constructor
  · rintro ⟨g, hg, hIn⟩
    have hPiece := Extent.mem_gaps.mp hg
    refine ⟨(hTiles.exists_iff b).mp ⟨_, List.mem_map_of_mem hPiece, hIn⟩, ?_⟩
    rintro ⟨x, hx, hOwn⟩
    exact Piece.noConfusion (hTiles.unique hPiece (Extent.marked_mem.mpr hx) hIn hOwn)
  · rintro ⟨hIn, hNot⟩
    obtain ⟨t, ht, hContains⟩ := (hTiles.exists_iff b).mpr hIn
    obtain ⟨piece, hPiece, rfl⟩ := List.mem_map.mp ht
    cases piece with
    | marked x => exact absurd ⟨x, Extent.marked_mem.mp hPiece, hContains⟩ hNot
    | gap g => exact ⟨g, Extent.mem_gaps.mpr hPiece, hContains⟩

-- ---------------------------------------------------------------------------
-- All extents of an event
-- ---------------------------------------------------------------------------

/-- The handler marks what one of the extents covers. -/
theorem signalAddDc_marked {extents : List Extent} {x : AllocId} :
    x ∈ (signalAddDc offsetOf areas extents).1 ↔ ∃ e ∈ extents, e.CoversArea areas x := by
  induction extents with
  | nil => simp [signalAddDc]
  | cons e rest ih =>
    rw [signalAddDc, List.mem_append, ih, mem_findCovered]
    simp only [List.mem_cons, exists_eq_or_imp]

/-- The handler gives back the gaps of each extent. -/
theorem signalAddDc_gaps {extents : List Extent} :
    (signalAddDc offsetOf areas extents).2 = extents.flatMap (Extent.gaps offsetOf areas) := by
  induction extents with
  | nil => rfl
  | cons e rest ih =>
    rw [signalAddDc, ih, List.flatMap_cons, Extent.gaps, Extent.pieces, gaps_pieces]

/-- A byte is given back if it lies in a gap of one of the extents. -/
theorem released_flatMap {extents : List Extent} {b : Nat} :
    Released (extents.flatMap (Extent.gaps offsetOf areas)) b ↔
      ∃ e ∈ extents, Released (e.gaps offsetOf areas) b := by
  simp only [Released, List.mem_flatMap]
  constructor
  · rintro ⟨g, ⟨e, he, hg⟩, hIn⟩
    exact ⟨e, he, g, hg, hIn⟩
  · rintro ⟨e, he, g, hg, hIn⟩
    exact ⟨g, ⟨e, he, hg⟩, hIn⟩

-- ---------------------------------------------------------------------------
-- Cutting an extent in two
-- ---------------------------------------------------------------------------

/-- An allocation of the map starts or stops at `p`. -/
def Boundary (areas : OrdMap Nat AllocId) (p : Nat) : Prop :=
  ∃ o x, areas.get? o = some x ∧ (p = o ∨ p = o + granularity)

/-- The two parts of the extent on the sides of `p`. -/
def Extent.below (e : Extent) (p : Nat) : Extent := ⟨e.offset, p - e.offset⟩

def Extent.above (e : Extent) (p : Nat) : Extent := ⟨p, e.offset + e.len - p⟩

/-- Areas begin and end at whole granules. -/
theorem Boundary.aligned (h : AlignedAreas offsetOf areas) {p : Nat} (hp : Boundary areas p) :
    granularity ∣ p := by
  obtain ⟨o, x, hx, rfl | rfl⟩ := hp
  · exact h.aligned hx
  · exact Nat.dvd_add (h.aligned hx) (Nat.dvd_refl _)

/-- No area reaches over the cut. -/
theorem split_covered (h : AlignedAreas offsetOf areas) {e : Extent} {p : Nat}
    (hp : Boundary areas p) (hLo : e.offset ≤ p) (hHi : p ≤ e.offset + e.len) {x : AllocId} :
    e.CoversArea areas x ↔
      (e.below p).CoversArea areas x ∨ (e.above p).CoversArea areas x := by
  simp only [Extent.CoversArea, Extent.below, Extent.above]
  constructor
  · rintro ⟨o, ho, hStart, hStop⟩
    rcases Nat.lt_or_ge o p with hLt | hGe
    · have hWhole := add_granularity_le_of_dvd (h.aligned ho) (hp.aligned h) hLt
      exact Or.inl ⟨o, ho, hStart, by omega⟩
    · exact Or.inr ⟨o, ho, hGe, by omega⟩
  · rintro (⟨o, ho, hStart, hStop⟩ | ⟨o, ho, hStart, hStop⟩)
    · exact ⟨o, ho, hStart, by omega⟩
    · exact ⟨o, ho, by omega, by omega⟩

/-- A byte of a covered area lies in the extent. -/
theorem Extent.owned_inside (h : AlignedAreas offsetOf areas) {e : Extent} {b : Nat}
    (hb : e.Owned offsetOf areas b) : e.HasByte b := by
  obtain ⟨x, ⟨o, ho, hStart, hStop⟩, hGe, hLt⟩ := hb
  rw [h.own ho] at hGe hLt
  exact ⟨by omega, by omega⟩

/-- The released bytes are the same on both sides together. -/
theorem split_released (h : AlignedAreas offsetOf areas) {e : Extent} {p : Nat}
    (hp : Boundary areas p) (hLo : e.offset ≤ p) (hHi : p ≤ e.offset + e.len) {b : Nat} :
    Released (e.gaps offsetOf areas) b ↔
      Released ((e.below p).gaps offsetOf areas) b ∨
        Released ((e.above p).gaps offsetOf areas) b := by
  have hByte : e.HasByte b ↔ (e.below p).HasByte b ∨ (e.above p).HasByte b := by
    simp only [Extent.HasByte, Extent.below, Extent.above]
    omega
  have hApart : ¬ ((e.below p).HasByte b ∧ (e.above p).HasByte b) := by
    simp only [Extent.HasByte, Extent.below, Extent.above]
    omega
  have hOwned : e.Owned offsetOf areas b ↔
      (e.below p).Owned offsetOf areas b ∨ (e.above p).Owned offsetOf areas b := by
    simp only [Extent.Owned, split_covered h hp hLo hHi, or_and_right, exists_or]
  have hBelow := Extent.owned_inside h (e := e.below p) (b := b)
  have hAbove := Extent.owned_inside h (e := e.above p) (b := b)
  rw [Extent.released_iff h, Extent.released_iff h, Extent.released_iff h, hByte, hOwned]
  tauto

/-- The extents of an event with `e` cut at `p`. -/
def cutAt (pre post : List Extent) (e : Extent) (p : Nat) : List Extent :=
  pre ++ e.below p :: e.above p :: post

/-- Cutting an extent between areas marks the same allocations. -/
theorem cut_marked (h : AlignedAreas offsetOf areas) {pre post : List Extent} {e : Extent}
    {p : Nat} (hp : Boundary areas p) (hLo : e.offset ≤ p) (hHi : p ≤ e.offset + e.len)
    (x : AllocId) :
    x ∈ (signalAddDc offsetOf areas (cutAt pre post e p)).1 ↔
      x ∈ (signalAddDc offsetOf areas (pre ++ e :: post)).1 := by
  rw [signalAddDc_marked, signalAddDc_marked, cutAt]
  simp only [List.mem_append, List.mem_cons, or_and_right, exists_or, exists_eq_left,
    split_covered h hp hLo hHi, or_assoc]

/-- Cutting an extent between areas gives back the same bytes. -/
theorem cut_released (h : AlignedAreas offsetOf areas) {pre post : List Extent} {e : Extent}
    {p : Nat} (hp : Boundary areas p) (hLo : e.offset ≤ p) (hHi : p ≤ e.offset + e.len)
    (b : Nat) :
    Released (signalAddDc offsetOf areas (cutAt pre post e p)).2 b ↔
      Released (signalAddDc offsetOf areas (pre ++ e :: post)).2 b := by
  rw [signalAddDc_gaps, signalAddDc_gaps, released_flatMap, released_flatMap, cutAt]
  simp only [List.mem_append, List.mem_cons, or_and_right, exists_or, exists_eq_left,
    split_released h hp hLo hHi, or_assoc]

/-- An acknowledgement marks what it covers and unmarks nothing. -/
theorem dcdSet_exec {s : Shared} {c : VmId} {extents : List Extent} {about : List AllocId}
    {x : AllocId} :
    (((Op.signalAddDc c extents about).exec s).alloc x).dcdSet = true ↔
      (s.alloc x).dcdSet = true ∨
        ∃ e ∈ extents, e.CoversArea (s.allocatedAreas c) x := by
  rw [← @signalAddDc_marked s.offsetOf]
  simp only [Op.exec]
  split
  · simp [*]
  · simp [*]

/-- **Added extents are tiled exactly.** On aligned areas and extents that end
below `2 ^ 64`, `signal_add_dc` overflows nothing, marks the allocations some
extent covers and no other, and reports the gaps of each extent; the marked
allocations of an extent and its gaps tile it in order, so every byte of it is
in exactly one of them. Cutting an extent where an allocation starts or stops
changes neither the state of any allocation nor the released bytes. -/
theorem added_extents_tiled {s : Shared} {c : VmId}
    (h : AlignedAreas s.offsetOf (s.allocatedAreas c)) {extents : List Extent}
    (hFits : ∀ e ∈ extents, e.Fits) (about : List AllocId) :
    signalAddDc64 s.offsetOf (s.allocatedAreas c) extents =
      some (signalAddDc s.offsetOf (s.allocatedAreas c) extents) ∧
    (∀ x, (((Op.signalAddDc c extents about).exec s).alloc x).dcdSet = true ↔
      (s.alloc x).dcdSet = true ∨ ∃ e ∈ extents, e.CoversArea (s.allocatedAreas c) x) ∧
    (signalAddDc s.offsetOf (s.allocatedAreas c) extents).2 =
      extents.flatMap (Extent.gaps s.offsetOf (s.allocatedAreas c)) ∧
    (∀ e ∈ extents,
      (∀ x, .marked x ∈ e.pieces s.offsetOf (s.allocatedAreas c) ↔
        e.CoversArea (s.allocatedAreas c) x) ∧
      Tiles e.offset ((e.pieces s.offsetOf (s.allocatedAreas c)).map (Piece.span s.offsetOf))
        (e.offset + e.len) ∧
      ∀ b, ((e.pieces s.offsetOf (s.allocatedAreas c)).map (Piece.span s.offsetOf)).countP
          (fun t => decide (t.Contains b)) = if e.HasByte b then 1 else 0) ∧
    ∀ pre e post p, extents = pre ++ e :: post → Boundary (s.allocatedAreas c) p →
      e.offset ≤ p → p ≤ e.offset + e.len →
        ((Op.signalAddDc c (cutAt pre post e p) about).exec s).alloc =
          ((Op.signalAddDc c extents about).exec s).alloc ∧
        ∀ b, Released (signalAddDc s.offsetOf (s.allocatedAreas c) (cutAt pre post e p)).2 b ↔
          Released (signalAddDc s.offsetOf (s.allocatedAreas c) extents).2 b := by
  refine ⟨signalAddDc64_eq h.areas64 hFits, fun x => dcdSet_exec, signalAddDc_gaps,
    fun e he => ⟨fun x => Extent.marked_mem, Extent.tiles h e, (Extent.tiles h e).countP⟩, ?_⟩
  rintro pre e post p rfl hp hLo hHi
  refine ⟨?_, cut_released h hp hLo hHi⟩
  funext x
  simp only [Op.exec, cut_marked h hp hLo hHi]

/-- VM 1 reserves the first two chunks of its DCD. -/
def demoTwoAreas : List (Label Op Choice) :=
  [.task 1 (.register 0), .task 1 (.register 1), .outside (.startRequest 1 (2 * granularity)),
    .task 2 .go, .task 2 .go]

theorem demoTwoAreas_runs : (orchestrator.run demo demoTwoAreas).isSome = true := by
  decide +kernel

/-- An extent that starts and ends five bytes late. -/
def demoLate : Extent := ⟨5, 2 * granularity⟩

/-- It covers only the second chunk; cut where that chunk starts it marks the
same. -/
theorem added_extents_tiled_demo :
    let s := (demoAfter demoTwoAreas).shared
    demoLate.pieces s.offsetOf (s.allocatedAreas 1) =
      [.gap ⟨5, granularity - 5⟩, .marked 2, .gap ⟨2 * granularity, 5⟩] ∧
    Tiles demoLate.offset
      ((demoLate.pieces s.offsetOf (s.allocatedAreas 1)).map (Piece.span s.offsetOf))
      (demoLate.offset + demoLate.len) ∧
    ((Op.signalAddDc 1 (cutAt [] [] demoLate granularity) []).exec s).alloc =
      ((Op.signalAddDc 1 [demoLate] []).exec s).alloc := by
  intro s
  have hAligned : AlignedAreas s.offsetOf (s.allocatedAreas 1) :=
    (areasOk_steps (demo_steps demoTwoAreas_runs)).alignedAreas
      (demo_devices64 demoTwoAreas_runs) 1
  have hFits : ∀ e ∈ [demoLate], e.Fits := by decide
  obtain ⟨-, -, -, hTiles, hCut⟩ := added_extents_tiled hAligned hFits []
  have hStart : Boundary (s.allocatedAreas 1) granularity :=
    ⟨granularity, 2, by decide +kernel, Or.inl rfl⟩
  refine ⟨by decide +kernel, ?_, ?_⟩
  · exact (hTiles demoLate (List.mem_singleton_self _)).2.1
  · exact (hCut [] demoLate [] granularity rfl hStart (by decide) (by decide)).1

end EphMemory.Orchestrator
