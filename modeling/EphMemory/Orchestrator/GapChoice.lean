import EphMemory.Lib.FirstFit
import EphMemory.Orchestrator.ReserveMemory

/-!
# Orchestrator — which gap is taken

`reserve_memory_contig` takes the first gap between the allocated areas that
holds what is asked for and, when there is none, the start of a largest one.
The scan with its running maximum, its `break` and its last comparison is the
search `Lib.firstFit` through the gaps in order.

* `Gap` — a maximal free stretch of the device;
* `gapsAfter`, `mem_gapsAfter` — the gaps in order;
* `GapScan.scan_firstFit` — the scan is the search;
* `contigRun_of_pos` — the path for an empty map computes the same;
* `gap_choice` — which run is reserved.
-/

namespace EphMemory.Orchestrator

open EphMemory.Lib

-- ---------------------------------------------------------------------------
-- The gaps of a device
-- ---------------------------------------------------------------------------

/-- A maximal free stretch: an area or an end of the device on either side. -/
structure Gap (deviceSize : Nat) (offsets : List Nat) (start len : Nat) : Prop where
  pos : 0 < len
  free : GapFree offsets start len
  inside : start + len ≤ deviceSize
  left : start = 0 ∨ ∃ o ∈ offsets, o + granularity = start
  right : start + len = deviceSize ∨ start + len ∈ offsets

/-- The stretches before, between and after areas, from `start` on. Between
two areas that touch there is one of length 0. -/
def gapsAfter (deviceSize : Nat) : Nat → List Nat → List (Nat × Nat)
  | start, [] => [(start, deviceSize - start)]
  | start, o :: rest => (start, o - start) :: gapsAfter deviceSize (o + granularity) rest

/-- The areas ahead of `start`, when `todo` are those still to be visited. -/
structure Ahead (deviceSize : Nat) (offsets todo : List Nat) (start : Nat) : Prop where
  aligned : AreasAligned deviceSize offsets
  sub : ∀ o ∈ todo, o ∈ offsets
  sorted : todo.Pairwise (· < ·)
  visited : ∀ o ∈ offsets, o ∈ todo ∨ o + granularity ≤ start
  ahead : ∀ o ∈ todo, start ≤ o
  left : start = 0 ∨ ∃ o ∈ offsets, o + granularity = start

namespace Ahead

variable {deviceSize : Nat} {offsets rest : List Nat} {o start : Nat}

theorem init (hAligned : AreasAligned deviceSize offsets) (hSorted : offsets.Pairwise (· < ·)) :
    Ahead deviceSize offsets offsets 0 where
  aligned := hAligned
  sub _ ho := ho
  sorted := hSorted
  visited _ ho := Or.inl ho
  ahead _ _ := Nat.zero_le _
  left := Or.inl rfl

/-- Past an area, the areas behind it are ahead. -/
theorem next (h : Ahead deviceSize offsets (o :: rest) start) :
    Ahead deviceSize offsets rest (o + granularity) := by
  obtain ⟨hLt, hRest⟩ := List.pairwise_cons.mp h.sorted
  have hMem := h.sub o (List.mem_cons_self ..)
  have hStart := h.ahead o (List.mem_cons_self ..)
  refine ⟨h.aligned, fun o' ho' => h.sub o' (List.mem_cons_of_mem _ ho'), hRest,
    fun o' ho' => ?_, fun o' ho' => ?_, Or.inr ⟨o, hMem, rfl⟩⟩
  · rcases h.visited o' ho' with hin | hin
    · rcases List.mem_cons.mp hin with rfl | hin
      · exact Or.inr (le_refl _)
      · exact Or.inl hin
    · exact Or.inr (by omega)
  · exact add_granularity_le_of_dvd (h.aligned o hMem).1
      (h.aligned o' (h.sub o' (List.mem_cons_of_mem _ ho'))).1 (hLt o' ho')

/-- A gap that starts here ends at the next area. -/
theorem len_eq {len : Nat} (h : Ahead deviceSize offsets (o :: rest) start)
    (hGap : Gap deviceSize offsets start len) : len = o - start := by
  have hg := granularity_pos
  have hMem := h.sub o (List.mem_cons_self ..)
  have hStart := h.ahead o (List.mem_cons_self ..)
  have hIn := (h.aligned o hMem).2
  have hPos := hGap.pos
  have hEnd : start + len ≤ o := by
    rcases hGap.free o hMem with hBefore | hAfter
    · omega
    · exact hAfter
  rcases hGap.right with hRight | hRight
  · omega
  · rcases h.visited _ hRight with hTodo | hDone
    · rcases List.mem_cons.mp hTodo with heq | hRest
      · omega
      · have := (List.pairwise_cons.mp h.sorted).1 _ hRest
        omega
    · omega

/-- A gap that starts later starts behind the next area. -/
theorem next_le {at' len : Nat} (h : Ahead deviceSize offsets (o :: rest) start)
    (hGap : Gap deviceSize offsets at' len) (hLt : start < at') : o + granularity ≤ at' := by
  rcases hGap.left with hZero | ⟨o', hMem, hEnd⟩
  · omega
  · rcases h.visited o' hMem with hTodo | hDone
    · rcases List.mem_cons.mp hTodo with rfl | hRest
      · omega
      · have := (List.pairwise_cons.mp h.sorted).1 o' hRest
        omega
    · omega

/-- The stretch before the next area, when it has a byte. -/
theorem gap_before (h : Ahead deviceSize offsets (o :: rest) start) (hPos : 0 < o - start) :
    Gap deviceSize offsets start (o - start) := by
  have hMem := h.sub o (List.mem_cons_self ..)
  have hIn := (h.aligned o hMem).2
  have hEnd : start + (o - start) = o := by omega
  refine ⟨hPos, fun o' ho' => ?_, by omega, h.left, Or.inr (hEnd.symm ▸ hMem)⟩
  rw [hEnd]
  rcases h.visited o' ho' with hTodo | hDone
  · rcases List.mem_cons.mp hTodo with rfl | hRest
    · exact Or.inr (le_refl _)
    · exact Or.inr (le_of_lt ((List.pairwise_cons.mp h.sorted).1 o' hRest))
  · exact Or.inl hDone

/-- The stretch behind the last area, when it has a byte. -/
theorem gap_last (h : Ahead deviceSize offsets [] start) (hPos : 0 < deviceSize - start) :
    Gap deviceSize offsets start (deviceSize - start) := by
  refine ⟨hPos, fun o ho => ?_, by omega, h.left, Or.inl (by omega)⟩
  rcases h.visited o ho with hTodo | hDone
  · cases hTodo
  · exact Or.inl hDone

/-- It is the only gap there. -/
theorem eq_last {at' len : Nat} (h : Ahead deviceSize offsets [] start)
    (hGap : Gap deviceSize offsets at' len) (hLe : start ≤ at') :
    at' = start ∧ len = deviceSize - start := by
  have hg := granularity_pos
  have hBehind : ∀ o ∈ offsets, o + granularity ≤ start := fun o ho =>
    (h.visited o ho).resolve_left List.not_mem_nil
  have hAt : at' = start := by
    rcases hGap.left with hZero | ⟨o, hMem, hEnd⟩
    · omega
    · have := hBehind o hMem
      omega
  refine ⟨hAt, ?_⟩
  rcases hGap.right with hRight | hRight
  · omega
  · have := hBehind _ hRight
    omega

end Ahead

/-- The list of gaps has the gaps in it. -/
theorem mem_gapsAfter {deviceSize : Nat} {offsets todo : List Nat} {start : Nat}
    (h : Ahead deviceSize offsets todo start) {at' len : Nat} :
    (at', len) ∈ gapsAfter deviceSize start todo ∧ 0 < len ↔
      Gap deviceSize offsets at' len ∧ start ≤ at' := by
  induction todo generalizing start with
  | nil =>
    rw [gapsAfter, List.mem_singleton, Prod.mk.injEq]
    constructor
    · rintro ⟨⟨rfl, rfl⟩, hPos⟩
      exact ⟨h.gap_last hPos, le_refl _⟩
    · rintro ⟨hGap, hLe⟩
      exact ⟨h.eq_last hGap hLe, hGap.pos⟩
  | cons o rest ih =>
    have hStart := h.ahead o (List.mem_cons_self ..)
    rw [gapsAfter, List.mem_cons, Prod.mk.injEq]
    constructor
    · rintro ⟨⟨rfl, rfl⟩ | hRest, hPos⟩
      · exact ⟨h.gap_before hPos, le_refl _⟩
      · obtain ⟨hGap, hLe⟩ := (ih h.next).mp ⟨hRest, hPos⟩
        exact ⟨hGap, by omega⟩
    · rintro ⟨hGap, hLe⟩
      refine ⟨?_, hGap.pos⟩
      rcases Nat.eq_or_lt_of_le hLe with rfl | hLt
      · exact Or.inl ⟨rfl, h.len_eq hGap⟩
      · exact Or.inr ((ih h.next).mpr ⟨hGap, h.next_le hGap hLt⟩).1

/-- They are listed in order. -/
theorem gapsAfter_sorted {deviceSize : Nat} {offsets todo : List Nat} {start : Nat}
    (h : Ahead deviceSize offsets todo start) :
    (gapsAfter deviceSize start todo).Pairwise (fun a b => a.1 < b.1) ∧
      ∀ e ∈ gapsAfter deviceSize start todo, start ≤ e.1 := by
  induction todo generalizing start with
  | nil =>
    refine ⟨List.pairwise_singleton _ _, fun e he => ?_⟩
    rw [List.mem_singleton.mp he]
  | cons o rest ih =>
    have hg := granularity_pos
    have hStart := h.ahead o (List.mem_cons_self ..)
    obtain ⟨hSorted, hLe⟩ := ih h.next
    rw [gapsAfter, List.pairwise_cons]
    refine ⟨⟨fun e he => ?_, hSorted⟩, fun e he => ?_⟩
    · have := hLe e he
      omega
    · rcases List.mem_cons.mp he with rfl | hRest
      · exact le_refl _
      · have := hLe e hRest
        omega

-- ---------------------------------------------------------------------------
-- The scan is a search through the gaps
-- ---------------------------------------------------------------------------

/-- The gap the scan keeps. -/
def GapScan.kept (g : GapScan) : Nat × Nat := (g.largestGapOffset, g.largestGap)

/-- The scan of the source is a first-fit search over the gaps. -/
theorem GapScan.scan_firstFit {deviceSize n : Nat} {offsets todo : List Nat} {g : GapScan}
    (hAligned : AreasAligned deviceSize offsets) (hSub : ∀ o ∈ todo, o ∈ offsets)
    (hSorted : todo.Pairwise (· < ·)) (h : Sound deviceSize offsets todo g)
    (hBroke : g.brokeEarly = false) (hLess : g.largestGap < n) :
    ((g.scan n todo).finish deviceSize).kept =
      firstFit Prod.snd n g.kept (gapsAfter deviceSize g.lastRegionEnd todo) := by
  induction todo generalizing g with
  | nil =>
    rw [scan, finish, hBroke, gapsAfter, firstFit]
    simp only [Bool.not_false, Bool.and_true, decide_eq_true_eq, gt_iff_lt, firstFit, ite_self]
    show _ = if g.largestGap < deviceSize - g.lastRegionEnd then _ else g.kept
    split <;> rfl
  | cons o rest ih =>
    have hKept : (g.note o).kept =
        if g.kept.2 < o - g.lastRegionEnd then (g.lastRegionEnd, o - g.lastRegionEnd)
        else g.kept := by
      rw [note_eq o h.first]
      show (_, _) = if g.largestGap < _ then _ else g.kept
      split
      · rename_i hMore
        rw [max_eq_right (le_of_lt hMore)]
      · rename_i hMore
        rw [max_eq_left (not_lt.mp hMore)]
        rfl
    have hNoteBroke : (g.note o).brokeEarly = false := by
      rw [note_eq o h.first]
      exact hBroke
    rw [scan, gapsAfter, firstFit]
    simp only
    rw [← hKept]
    by_cases hEnough : (g.note o).largestGap ≥ n
    · rw [if_pos hEnough, if_pos (show n ≤ (g.note o).kept.2 from hEnough), finish]
      rw [if_neg (by simp)]
      rfl
    · rw [if_neg hEnough, if_neg (show ¬ n ≤ (g.note o).kept.2 from hEnough)]
      exact ih (fun o' ho' => hSub o' (List.mem_cons_of_mem _ ho'))
        (List.pairwise_cons.mp hSorted).2 (h.next hAligned hSub hSorted) hNoteBroke
        (Nat.lt_of_not_le hEnough)

/-- The run `reserve_memory_contig` takes for `n` bytes from a gap. -/
def runIn (n : Nat) (gap : Nat × Nat) : Nat × Nat :=
  if alignDown gap.2 = 0 then (0, 0)
  else (gap.1, if alignDown gap.2 < n then alignDown gap.2 else n)

/-- The size asked for, in whole chunks of the device. -/
def clamped (deviceSize size : Nat) : Nat := alignDown (min size deviceSize)

/-- The size that is searched for is cut down to the device and to whole granules. -/
theorem clamped_eq (deviceSize size : Nat) :
    alignDown (if size > deviceSize then deviceSize else size) = clamped deviceSize size := by
  rw [clamped]
  split
  · rename_i hMore
    rw [min_eq_right (le_of_lt hMore)]
  · rename_i hMore
    rw [min_eq_left (not_lt.mp hMore)]

theorem clamped_le (deviceSize size : Nat) : clamped deviceSize size ≤ deviceSize :=
  le_trans (alignDown_le _) (min_le_right ..)

theorem alignDown_of_dvd {n : Nat} (h : granularity ∣ n) : alignDown n = n :=
  Nat.div_mul_cancel h

theorem alignDown_mono {a b : Nat} (h : a ≤ b) : alignDown a ≤ alignDown b :=
  Nat.mul_le_mul_right _ (Nat.div_le_div_right h)

theorem alignDown_eq_zero_iff {n : Nat} : alignDown n = 0 ↔ n < granularity := by
  have hg := granularity_pos
  rw [alignDown, Nat.mul_eq_zero, Nat.div_eq_zero_iff]
  omega

/-- With something to reserve, all paths take the first gap that holds it,
else the start of the largest; an empty map has one gap, the device. -/
theorem contigRun_of_pos {deviceSize size : Nat} {offsets : List Nat}
    (hAligned : AreasAligned deviceSize offsets) (hSorted : offsets.Pairwise (· < ·))
    (hPos : 0 < clamped deviceSize size) :
    contigRun deviceSize offsets size =
      runIn (clamped deviceSize size)
        (firstFit Prod.snd (clamped deviceSize size) (0, 0)
          (gapsAfter deviceSize 0 offsets)) := by
  have hn := clamped_le deviceSize size
  have hWhole : alignDown (clamped deviceSize size) = clamped deviceSize size :=
    alignDown_of_dvd (dvd_alignDown _)
  unfold contigRun
  rw [clamped_eq]
  generalize clamped deviceSize size = n at hPos hn hWhole
  simp only
  rw [if_neg (by omega)]
  by_cases hEmpty : offsets = []
  · subst hEmpty
    have hFound : firstFit Prod.snd n (0, 0) (gapsAfter deviceSize 0 []) = (0, deviceSize) := by
      rw [gapsAfter, firstFit]
      simp only
      rw [if_pos (show 0 < deviceSize - 0 by omega), if_pos (show n ≤ deviceSize - 0 by omega)]
      rfl
    have hFits : n ≤ alignDown deviceSize := hWhole ▸ alignDown_mono hn
    rw [if_pos rfl, hFound, runIn]
    simp only
    rw [if_neg (by omega), if_neg (by omega)]
  · rw [if_neg hEmpty]
    have hScan := GapScan.scan_firstFit hAligned (fun _ ho => ho) hSorted
      GapScan.start_sound rfl hPos
    have hStart : GapScan.start.kept = (0, 0) := rfl
    have hFrom : GapScan.start.lastRegionEnd = 0 := rfl
    rw [hStart, hFrom] at hScan
    rw [← hScan]
    rfl

-- ---------------------------------------------------------------------------
-- Which run is reserved
-- ---------------------------------------------------------------------------

/-- The run of `bytes` bytes at `start` that is to be taken for `n` bytes. -/
structure GapChosen (deviceSize : Nat) (offsets : List Nat) (n start bytes : Nat) : Prop where
  whole : granularity ∣ bytes
  /-- it is the beginning of a gap -/
  run : 0 < bytes → ∃ len, Gap deviceSize offsets start len ∧ bytes ≤ len
  /-- it is all of `n`, in the lowest gap that holds that -/
  lowest : ∀ start' len, Gap deviceSize offsets start' len → n ≤ len →
    bytes = n ∧ (0 < n → start ≤ start')
  /-- else it is what a largest gap holds -/
  largest : (∀ start' len, Gap deviceSize offsets start' len → len < n) →
    ∃ most, (∀ start' len, Gap deviceSize offsets start' len → len ≤ most) ∧
      (most = 0 ∨ ∃ start', Gap deviceSize offsets start' most) ∧ bytes = alignDown most
  empty : bytes = 0 ↔
    n = 0 ∨ ∀ start' len, Gap deviceSize offsets start' len → len < granularity

section

variable {deviceSize n : Nat} {offsets : List Nat}

/-- Nothing asked for, nothing taken. -/
theorem GapChosen.nothing : GapChosen deviceSize offsets 0 0 0 where
  whole := Nat.dvd_zero _
  run h := absurd h (Nat.lt_irrefl 0)
  lowest _ _ _ _ := ⟨rfl, fun h => absurd h (Nat.lt_irrefl 0)⟩
  largest h := ⟨0, fun start' len hGap => absurd (h start' len hGap) (Nat.not_lt_zero _),
    Or.inl rfl, (alignDown_eq_zero_iff.mpr granularity_pos).symm⟩
  empty := ⟨fun _ => Or.inl rfl, fun _ => rfl⟩

/-- A gap holds `n`: the search stops at the lowest such. -/
theorem GapChosen.of_found (hAligned : AreasAligned deviceSize offsets)
    (hSorted : offsets.Pairwise (· < ·)) (hn : granularity ∣ n) (hPos : 0 < n)
    (hSome : ∃ start len, Gap deviceSize offsets start len ∧ n ≤ len) :
    GapChosen deviceSize offsets n
      (runIn n (firstFit Prod.snd n (0, 0) (gapsAfter deviceSize 0 offsets))).1
      (runIn n (firstFit Prod.snd n (0, 0) (gapsAfter deviceSize 0 offsets))).2 := by
  have hAhead := Ahead.init hAligned hSorted
  have hMem : ∃ e ∈ gapsAfter deviceSize 0 offsets, n ≤ e.2 := by
    obtain ⟨start, len, hGap, hFits⟩ := hSome
    exact ⟨(start, len), ((mem_gapsAfter hAhead).mpr ⟨hGap, Nat.zero_le _⟩).1, hFits⟩
  have hStart : Prod.snd ((0, 0) : Nat × Nat) < n := hPos
  obtain ⟨hFits, pre, post, hSplit, hPre⟩ := firstFit_found Prod.snd hStart hMem
  generalize firstFit Prod.snd n (0, 0) (gapsAfter deviceSize 0 offsets) = e at hFits hSplit
  have hWhole : n ≤ alignDown e.2 := alignDown_of_dvd hn ▸ alignDown_mono hFits
  have hRun : runIn n e = (e.1, n) := by
    rw [runIn, if_neg (by omega), if_neg (by omega)]
  have hGap : Gap deviceSize offsets e.1 e.2 := by
    refine ((mem_gapsAfter hAhead).mp ⟨?_, by omega⟩).1
    rw [hSplit]
    exact List.mem_append_right _ (List.mem_cons_self ..)
  have hChunk : granularity ≤ n := Nat.le_of_dvd hPos hn
  rw [hRun]
  refine ⟨hn, fun _ => ⟨e.2, hGap, hFits⟩, fun start' len hGap' hFits' => ⟨rfl, fun _ => ?_⟩,
    fun hNone => absurd hFits (Nat.not_le.mpr (hNone _ _ hGap)), ?_⟩
  · -- a gap before it does not hold `n`, one after it starts later
    have hMem' := ((mem_gapsAfter hAhead).mpr ⟨hGap', Nat.zero_le _⟩).1
    have hOrder := (gapsAfter_sorted hAhead).1
    rw [hSplit] at hMem' hOrder
    rcases List.mem_append.mp hMem' with hBefore | hAfter
    · exact absurd hFits' (Nat.not_le.mpr (hPre _ hBefore))
    · rcases List.mem_cons.mp hAfter with heq | hPost
      · exact le_of_eq (congrArg Prod.fst heq).symm
      · have hPair := (List.pairwise_append.mp hOrder).2.1
        exact le_of_lt ((List.pairwise_cons.mp hPair).1 _ hPost)
  · constructor
    · intro hZero
      exact Or.inl hZero
    · rintro (hZero | hNone)
      · exact hZero
      · have := hNone _ _ hGap
        omega

/-- No gap holds `n`: the search ends with a largest one. -/
theorem GapChosen.of_none (hAligned : AreasAligned deviceSize offsets)
    (hSorted : offsets.Pairwise (· < ·)) (hPos : 0 < n)
    (hNone : ∀ start len, Gap deviceSize offsets start len → len < n) :
    GapChosen deviceSize offsets n
      (runIn n (firstFit Prod.snd n (0, 0) (gapsAfter deviceSize 0 offsets))).1
      (runIn n (firstFit Prod.snd n (0, 0) (gapsAfter deviceSize 0 offsets))).2 := by
  have hAhead := Ahead.init hAligned hSorted
  have hAll : ∀ e ∈ gapsAfter deviceSize 0 offsets, e.2 < n := by
    rintro ⟨start, len⟩ he
    rcases Nat.eq_zero_or_pos len with rfl | hLen
    · exact hPos
    · exact hNone start len ((mem_gapsAfter hAhead).mp ⟨he, hLen⟩).1
  have hStart : Prod.snd ((0, 0) : Nat × Nat) < n := hPos
  obtain ⟨hIn, -, hMost⟩ := firstFit_largest Prod.snd hStart hAll
  generalize firstFit Prod.snd n (0, 0) (gapsAfter deviceSize 0 offsets) = e at hIn hMost
  have hGap : 0 < e.2 → Gap deviceSize offsets e.1 e.2 := by
    intro hLen
    rcases hIn with rfl | hIn
    · exact absurd hLen (Nat.lt_irrefl 0)
    · exact ((mem_gapsAfter hAhead).mp ⟨hIn, hLen⟩).1
  have hLargest : ∀ start' len, Gap deviceSize offsets start' len → len ≤ e.2 :=
    fun start' len hGap' =>
      hMost _ ((mem_gapsAfter hAhead).mpr ⟨hGap', Nat.zero_le _⟩).1
  have hLess : e.2 < n := by
    rcases Nat.eq_zero_or_pos e.2 with hZero | hLen
    · omega
    · exact hNone _ _ (hGap hLen)
  have hLe := alignDown_le e.2
  have hg := granularity_pos
  have hBytes : (runIn n e).2 = alignDown e.2 := by
    rw [runIn]
    split
    · rename_i hZero
      exact hZero.symm
    · exact if_pos (by omega)
  rw [hBytes]
  refine ⟨dvd_alignDown _, fun hTaken => ?_,
    fun start' len hGap' hFits => absurd hFits (Nat.not_le.mpr (hNone _ _ hGap')),
    fun _ => ⟨e.2, hLargest, ?_, rfl⟩, ?_⟩
  · have hStart : (runIn n e).1 = e.1 := by
      rw [runIn, if_neg (by omega)]
    exact ⟨e.2, hStart ▸ hGap (by omega), hLe⟩
  · rcases Nat.eq_zero_or_pos e.2 with hZero | hLen
    · exact Or.inl hZero
    · exact Or.inr ⟨_, hGap hLen⟩
  · rw [alignDown_eq_zero_iff]
    constructor
    · intro hSmall
      exact Or.inr fun start' len hGap' => lt_of_le_of_lt (hLargest start' len hGap') hSmall
    · rintro (hZero | hSmall)
      · omega
      · rcases Nat.eq_zero_or_pos e.2 with hZero | hLen
        · omega
        · exact hSmall _ _ (hGap hLen)

end

/-- The run that is reserved is in the chosen gap. -/
theorem contigRun_chosen {deviceSize : Nat} {offsets : List Nat}
    (hAligned : AreasAligned deviceSize offsets) (hSorted : offsets.Pairwise (· < ·))
    (size : Nat) :
    GapChosen deviceSize offsets (clamped deviceSize size)
      (contigRun deviceSize offsets size).1 (contigRun deviceSize offsets size).2 := by
  rcases Nat.eq_zero_or_pos (clamped deviceSize size) with hZero | hPos
  · have hRun : contigRun deviceSize offsets size = (0, 0) := by
      rw [contigRun, clamped_eq, hZero]
      rfl
    rw [hZero, hRun]
    exact GapChosen.nothing
  · rw [contigRun_of_pos hAligned hSorted hPos]
    by_cases hSome : ∃ start len, Gap deviceSize offsets start len ∧ clamped deviceSize size ≤ len
    · exact GapChosen.of_found hAligned hSorted (dvd_alignDown _) hPos hSome
    · refine GapChosen.of_none hAligned hSorted hPos fun start len hGap => ?_
      exact Nat.lt_of_not_le fun hFits => hSome ⟨start, len, hGap, hFits⟩

/-- **Which gap is taken.** Whatever whole chunks of a device are allocated,
the allocations returned lie side by side from the beginning of a gap on:
of the lowest one that holds all that was asked for, or else in as many whole
chunks as a largest gap holds. On 64-bit integers the same is computed. -/
theorem gap_choice {s : Shared} {c : VmId}
    (hAligned : AreasAligned (s.deviceSize c) (s.allocatedAreas c).keys) (size : Nat) :
    ∃ start bytes,
      (s.newIds c size).map (s.reserveMemoryContig c size).offsetOf = runOffsets start bytes ∧
      GapChosen (s.deviceSize c) (s.allocatedAreas c).keys (clamped (s.deviceSize c) size)
        start bytes ∧
      (s.deviceSize c < 2 ^ 64 →
        contigRun64 (s.deviceSize c) (s.allocatedAreas c).keys size = some (start, bytes)) := by
  have hSorted := OrdMap_keys_sorted (s.allocatedAreas c)
  have hChosen := contigRun_chosen hAligned hSorted size
  have hNew : s.newOffsets c size =
      runOffsets (contigRun (s.deviceSize c) (s.allocatedAreas c).keys size).1
        (contigRun (s.deviceSize c) (s.allocatedAreas c).keys size).2 := rfl
  rcases hRun : contigRun (s.deviceSize c) (s.allocatedAreas c).keys size with ⟨start, bytes⟩
  rw [hRun] at hChosen hNew
  refine ⟨start, bytes, ?_, hChosen, fun hDevice => ?_⟩
  · rw [map_offsetOf_newIds, hNew]
  · rw [contigRun64_eq hDevice hAligned hSorted, hRun]

/-- With the first and the third of four chunks allocated, two chunks fit
nowhere. The gap at the end of the device is longer than the one before it, by
five bytes, and its chunk is the one taken. -/
theorem gap_choice_demo :
    (demoFragmented.newIds 1 (2 * granularity)).map
      (demoFragmented.reserveMemoryContig 1 (2 * granularity)).offsetOf =
        runOffsets (3 * granularity) granularity := by
  have hReachable : ReachableAreas (demoFragmented.deviceSize 1)
      (demoFragmented.allocatedAreas 1) := demoFragments_reachable
  have hDevice : demoFragmented.deviceSize 1 < 2 ^ 64 := by decide
  have hTaken : contigRun64 (demoFragmented.deviceSize 1) (demoFragmented.allocatedAreas 1).keys
      (2 * granularity) = some (3 * granularity, granularity) := by decide +kernel
  obtain ⟨start, bytes, hRun, -, h64⟩ := gap_choice hReachable.aligned (2 * granularity)
  obtain ⟨rfl, rfl⟩ := Prod.mk.inj (Option.some.inj ((h64 hDevice).symm.trans hTaken))
  exact hRun

end EphMemory.Orchestrator
