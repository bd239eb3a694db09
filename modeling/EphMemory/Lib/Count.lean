import Mathlib

/-!
# Counting

Integer counts for conservation laws: an indicator of a proposition, how often
a list has an element, how many of its elements pass a test. They are integers
so that a law can move a term to the other side.
-/

namespace EphMemory.Lib

variable {α : Type}

-- ---------------------------------------------------------------------------
-- Indicators
-- ---------------------------------------------------------------------------

open Classical in
/-- One for a true proposition. -/
noncomputable def ind (p : Prop) : Int := if p then 1 else 0

@[simp] theorem ind_true {p : Prop} (h : p) : ind p = 1 := if_pos h

@[simp] theorem ind_false {p : Prop} (h : ¬ p) : ind p = 0 := if_neg h

theorem ind_nonneg (p : Prop) : 0 ≤ ind p := by
  unfold ind
  split <;> omega

theorem ind_le_one (p : Prop) : ind p ≤ 1 := by
  unfold ind
  split <;> omega

theorem ind_mono {p q : Prop} (h : p → q) : ind p ≤ ind q := by
  by_cases hp : p
  · rw [ind_true hp, ind_true (h hp)]
  · rw [ind_false hp]
    exact ind_nonneg q

-- ---------------------------------------------------------------------------
-- Elements of a list
-- ---------------------------------------------------------------------------

section

variable [DecidableEq α]

/-- How often an element is listed. -/
def cnt (x : α) (l : List α) : Int := (l.count x : Nat)

@[simp] theorem cnt_nil (x : α) : cnt x [] = 0 := rfl

@[simp] theorem cnt_cons (x y : α) (l : List α) :
    cnt x (y :: l) = ind (y = x) + cnt x l := by
  unfold cnt
  rw [List.count_cons]
  by_cases h : y = x
  · simp [h, add_comm]
  · simp [h]

@[simp] theorem cnt_append (x : α) (l l' : List α) :
    cnt x (l ++ l') = cnt x l + cnt x l' := by
  simp [cnt]

theorem cnt_nonneg (x : α) (l : List α) : 0 ≤ cnt x l := Int.natCast_nonneg _

/-- However a list is cut, both parts together count what it counts. -/
theorem cnt_take_add_drop (x : α) (n : Nat) (l : List α) :
    cnt x (l.take n) + cnt x (l.drop n) = cnt x l := by
  rw [← cnt_append, List.take_append_drop]

theorem one_le_cnt_iff {x : α} {l : List α} : 1 ≤ cnt x l ↔ x ∈ l := by
  unfold cnt
  rw [← List.count_pos_iff]
  omega

/-- What is not listed is not counted. -/
theorem cnt_eq_zero_iff {x : α} {l : List α} : cnt x l = 0 ↔ x ∉ l := by
  have h := cnt_nonneg x l
  rw [← one_le_cnt_iff]
  omega

theorem ind_mem_le_cnt (x : α) (l : List α) : ind (x ∈ l) ≤ cnt x l := by
  by_cases h : x ∈ l
  · rw [ind_true h]
    exact one_le_cnt_iff.mpr h
  · rw [ind_false h]
    exact cnt_nonneg x l

end

-- ---------------------------------------------------------------------------
-- Elements that pass a test
-- ---------------------------------------------------------------------------

/-- How many elements of a list pass a test. -/
def tally (p : α → Bool) (l : List α) : Int := (l.countP p : Nat)

theorem tally_cons (p : α → Bool) (o : α) (l : List α) :
    tally p (o :: l) = tally p l + if p o = true then 1 else 0 := by
  unfold tally
  rw [List.countP_cons]
  split <;> simp

theorem tally_append (p : α → Bool) (l l' : List α) :
    tally p (l ++ l') = tally p l + tally p l' := by
  simp [tally]

theorem tally_nonneg (p : α → Bool) (l : List α) : 0 ≤ tally p l :=
  Int.natCast_nonneg _

theorem one_le_tally_iff {p : α → Bool} {l : List α} :
    1 ≤ tally p l ↔ ∃ o ∈ l, p o = true := by
  rw [← List.countP_pos_iff]
  unfold tally
  omega

theorem tally_mono {p q : α → Bool} (l : List α) (h : ∀ o, p o = true → q o = true) :
    tally p l ≤ tally q l := by
  have := List.countP_mono_left (l := l) fun o _ => h o
  unfold tally
  omega

/-- At most one element passes, so two that do are the same. -/
theorem eq_of_tally_le_one {p : α → Bool} {l : List α} {a b : α} (h : tally p l ≤ 1)
    (ha : a ∈ l) (hb : b ∈ l) (hpa : p a = true) (hpb : p b = true) : a = b := by
  induction l with
  | nil => cases ha
  | cons c rest ih =>
    rw [tally_cons] at h
    have hNonneg := tally_nonneg p rest
    -- an element of the rest that passes leaves no room for the head
    have hRest : ∀ d ∈ rest, p d = true → p c = false := by
      intro d hd hpd
      have hOne := one_le_tally_iff.mpr ⟨d, hd, hpd⟩
      by_contra hc
      rw [Bool.not_eq_false] at hc
      rw [if_pos hc] at h
      omega
    rcases List.mem_cons.mp ha with ha | ha
    · rcases List.mem_cons.mp hb with hb | hb
      · rw [ha, hb]
      · rw [ha, hRest b hb hpb] at hpa
        cases hpa
    · rcases List.mem_cons.mp hb with hb | hb
      · rw [hb, hRest a ha hpa] at hpb
        cases hpb
      · refine ih ?_ ha hb
        split at h <;> omega

end EphMemory.Lib
