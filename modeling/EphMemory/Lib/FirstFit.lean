import Mathlib

/-!
# First fit, else the largest

A search through a list for something of at least a given size. It takes the
first element that is large enough; when none is, the largest it has seen.

* `firstFit` — one pass that keeps the largest so far and stops when that is
  large enough;
* `firstFit_found` — it is the first that is large enough;
* `firstFit_largest` — it is the largest when none is.
-/

namespace EphMemory.Lib

variable {α β : Type} [LinearOrder β] (size : α → β) {n : β} {l : List α}

def firstFit (n : β) : α → List α → α
  | best, [] => best
  | best, a :: rest =>
    let best := if size best < size a then a else best
    if n ≤ size best then best else firstFit n best rest

/-- Where something is large enough, the first that is wins. -/
theorem firstFit_found {best : α} (hBest : size best < n) (h : ∃ a ∈ l, n ≤ size a) :
    n ≤ size (firstFit size n best l) ∧
      ∃ pre post, l = pre ++ firstFit size n best l :: post ∧ ∀ a ∈ pre, size a < n := by
  induction l generalizing best with
  | nil =>
    obtain ⟨a, ha, -⟩ := h
    cases ha
  | cons b rest ih =>
    rw [firstFit]
    by_cases hb : n ≤ size b
    · have hLess : size best < size b := lt_of_lt_of_le hBest hb
      rw [if_pos hLess, if_pos hb]
      exact ⟨hb, [], rest, rfl, fun a ha => absurd ha List.not_mem_nil⟩
    · have hNext : size (if size best < size b then b else best) < n := by
        split
        · exact not_le.mp hb
        · exact hBest
      rw [if_neg (not_le.mpr hNext)]
      obtain ⟨a, ha, hFits⟩ := h
      have hRest : a ∈ rest := by
        rcases List.mem_cons.mp ha with rfl | ha
        · exact absurd hFits hb
        · exact ha
      obtain ⟨hEnough, pre, post, hSplit, hPre⟩ := ih hNext ⟨a, hRest, hFits⟩
      refine ⟨hEnough, b :: pre, post, congrArg (b :: ·) hSplit, fun a ha => ?_⟩
      rcases List.mem_cons.mp ha with rfl | ha
      · exact not_le.mp hb
      · exact hPre a ha

/-- Where nothing is large enough, a largest element wins. -/
theorem firstFit_largest {best : α} (hBest : size best < n) (h : ∀ a ∈ l, size a < n) :
    (firstFit size n best l = best ∨ firstFit size n best l ∈ l) ∧
      size best ≤ size (firstFit size n best l) ∧
      ∀ a ∈ l, size a ≤ size (firstFit size n best l) := by
  induction l generalizing best with
  | nil => exact ⟨Or.inl rfl, le_refl _, fun a ha => absurd ha List.not_mem_nil⟩
  | cons b rest ih =>
    have hb := h b (List.mem_cons_self ..)
    have hRest := fun a ha => h a (List.mem_cons_of_mem b ha)
    rw [firstFit]
    by_cases hLess : size best < size b
    · rw [if_pos hLess, if_neg (not_le.mpr hb)]
      obtain ⟨hMem, hLe, hAll⟩ := ih hb hRest
      refine ⟨Or.inr ?_, le_trans (le_of_lt hLess) hLe, fun a ha => ?_⟩
      · rcases hMem with hEq | hMem
        · rw [hEq]
          exact List.mem_cons_self ..
        · exact List.mem_cons_of_mem _ hMem
      · rcases List.mem_cons.mp ha with rfl | ha
        · exact hLe
        · exact hAll a ha
    · rw [if_neg hLess, if_neg (not_le.mpr hBest)]
      obtain ⟨hMem, hLe, hAll⟩ := ih hBest hRest
      refine ⟨hMem.imp id (List.mem_cons_of_mem _), hLe, fun a ha => ?_⟩
      rcases List.mem_cons.mp ha with rfl | ha
      · exact le_trans (not_lt.mp hLess) hLe
      · exact hAll a ha

end EphMemory.Lib
