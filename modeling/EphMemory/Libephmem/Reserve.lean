import EphMemory.Proto

/-!
# Libephmem — the size of a reservation

How `libephmem_reserve` rounds the amount it is asked for, and what it makes of
the size it is answered with.

* `alignAmount_eq` — the mask arithmetic is `checked_next_multiple_of`;
* `checkedNextMultipleOf_aligned` — rounding again changes nothing.
-/

namespace EphMemory.Libephmem

/-- `LIBEPHMEM_RESERVATION_GRANULARITY - 1`. -/
def granularityMask : BitVec 64 := BitVec.ofNat 64 (granularity - 1)

/-- The amount rounded up, none when that would overflow. -/
def alignAmount (amount : BitVec 64) : Option (BitVec 64) :=
  if amount > BitVec.allOnes 64 - granularityMask then none
  else some ((amount + granularityMask) &&& ~~~granularityMask)

/-- What `libephmem_reserve` returns for a reply: at most what was requested. -/
def reservedSize (amount reply : Nat) : Nat := if reply > amount then amount else reply

-- ---------------------------------------------------------------------------
-- Rounding
-- ---------------------------------------------------------------------------

theorem granularity_eq : granularity = 2 ^ 28 := by decide

theorem toNat_granularityMask : granularityMask.toNat = granularity - 1 := by decide

/-- Beyond this the aligned amount would not fit. -/
theorem toNat_limit : (BitVec.allOnes 64 - granularityMask).toNat = 2 ^ 64 - granularity := by
  decide

/-- Clearing the bits of the mask rounds down. -/
theorem toNat_and_not_mask (x : BitVec 64) :
    (x &&& ~~~granularityMask).toNat = x.toNat / granularity * granularity := by
  refine Nat.eq_of_testBit_eq fun i => ?_
  have hMask : granularityMask.getLsbD i = decide (i < 28) := by
    rw [← BitVec.testBit_toNat, toNat_granularityMask, granularity_eq, Nat.testBit_two_pow_sub_one]
  rw [BitVec.testBit_toNat, BitVec.getLsbD_and, BitVec.getLsbD_not, hMask, granularity_eq,
    Nat.mul_comm, Nat.testBit_two_pow_mul, Nat.testBit_div_two_pow, BitVec.testBit_toNat]
  by_cases hi : i < 28
  · simp [hi]
  · rw [Nat.sub_add_cancel (Nat.le_of_not_lt hi)]
    by_cases h64 : i < 64
    · simp [hi, h64, Nat.le_of_not_lt hi]
    · simp [h64, BitVec.getLsbD_of_ge x i (Nat.le_of_not_lt h64)]

/-- The next multiple, by rounding down what is almost a chunk more. -/
theorem next_multiple (n : Nat) (h : n % granularity ≠ 0) :
    n + (granularity - n % granularity) =
      (n + (granularity - 1)) / granularity * granularity := by
  have hPos := granularity_pos
  have hLt := Nat.mod_lt n hPos
  have hDiv := Nat.div_add_mod n granularity
  have hQuot : (n + (granularity - 1)) / granularity = n / granularity + 1 := by
    rw [Nat.div_eq_of_lt_le]
    · rw [Nat.add_mul, Nat.one_mul, Nat.mul_comm]
      omega
    · rw [Nat.add_mul, Nat.add_mul, Nat.one_mul, Nat.mul_comm]
      omega
  rw [hQuot, Nat.add_mul, Nat.one_mul, Nat.mul_comm]
  omega

theorem multiple_unchanged (n : Nat) (h : n % granularity = 0) :
    (n + (granularity - 1)) / granularity * granularity = n := by
  have hPos := granularity_pos
  have hDiv := Nat.div_add_mod n granularity
  have hQuot : (n + (granularity - 1)) / granularity = n / granularity := by
    rw [Nat.div_eq_of_lt_le]
    · rw [Nat.mul_comm]
      omega
    · rw [Nat.add_mul, Nat.one_mul, Nat.mul_comm]
      omega
  rw [hQuot, Nat.mul_comm]
  omega

/-- Below 2^64 the last multiple is a whole chunk away from it. -/
theorem lt_two_pow_iff (n : Nat) (h : n % granularity ≠ 0) :
    n + (granularity - n % granularity) < 2 ^ 64 ↔ n ≤ 2 ^ 64 - granularity := by
  have hTop : (2 : Nat) ^ 64 = granularity * 2 ^ 36 := by decide
  have hPos := granularity_pos
  have hLt := Nat.mod_lt n hPos
  have hDiv := Nat.div_add_mod n granularity
  constructor
  · intro hLess
    have hQuot : n / granularity + 1 < 2 ^ 36 := by
      refine Nat.lt_of_mul_lt_mul_left (a := granularity) ?_
      rw [Nat.mul_add, Nat.mul_one, ← hTop]
      omega
    have hLe : granularity * (n / granularity + 2) ≤ granularity * 2 ^ 36 :=
      Nat.mul_le_mul_left _ hQuot
    rw [Nat.mul_add, ← hTop] at hLe
    omega
  · intro hLe
    have hQuot : n / granularity < 2 ^ 36 - 1 := by
      refine Nat.lt_of_mul_lt_mul_left (a := granularity) ?_
      rw [Nat.mul_sub, Nat.mul_one, ← hTop]
      omega
    have hLe' : granularity * (n / granularity + 1) ≤ granularity * (2 ^ 36 - 1) :=
      Nat.mul_le_mul_left _ hQuot
    rw [Nat.mul_add, Nat.mul_one, Nat.mul_sub, Nat.mul_one, ← hTop] at hLe'
    omega

/-- The mask arithmetic is `checked_next_multiple_of`. -/
theorem alignAmount_eq (amount : BitVec 64) :
    (alignAmount amount).map BitVec.toNat = checkedNextMultipleOf amount.toNat := by
  have hPos := granularity_pos
  have hTop : granularity < 2 ^ 64 := by decide
  have hLess := amount.isLt
  unfold alignAmount
  by_cases hOver : amount > BitVec.allOnes 64 - granularityMask
  · rw [if_pos hOver]
    rw [gt_iff_lt, BitVec.lt_def, toNat_limit] at hOver
    unfold checkedNextMultipleOf
    by_cases hMod : amount.toNat % granularity = 0
    · -- a multiple of the granularity is at most the limit
      obtain ⟨q, hq⟩ := Nat.dvd_of_mod_eq_zero hMod
      have hTop' : (2 : Nat) ^ 64 = granularity * 2 ^ 36 := by decide
      have hQuot : q < 2 ^ 36 := by
        refine Nat.lt_of_mul_lt_mul_left (a := granularity) ?_
        rw [← hq, ← hTop']
        exact hLess
      have hLe : granularity * (q + 1) ≤ granularity * 2 ^ 36 := Nat.mul_le_mul_left _ hQuot
      rw [Nat.mul_add, Nat.mul_one, ← hq, ← hTop'] at hLe
      omega
    · rw [if_neg hMod, if_neg]
      · rfl
      · rw [lt_two_pow_iff _ hMod]
        omega
  · rw [if_neg hOver]
    rw [gt_iff_lt, BitVec.lt_def, toNat_limit] at hOver
    have hSum : (amount + granularityMask).toNat = amount.toNat + (granularity - 1) := by
      rw [BitVec.toNat_add, toNat_granularityMask, Nat.mod_eq_of_lt (by omega)]
    rw [Option.map_some, toNat_and_not_mask, hSum]
    unfold checkedNextMultipleOf
    by_cases hMod : amount.toNat % granularity = 0
    · rw [if_pos hMod, multiple_unchanged _ hMod]
    · rw [if_neg hMod, if_pos ((lt_two_pow_iff _ hMod).mpr (by omega)), next_multiple _ hMod]

/-- What was rounded is not rounded again. -/
theorem checkedNextMultipleOf_aligned {n R : Nat} (h : checkedNextMultipleOf n = some R) :
    checkedNextMultipleOf R = some R := by
  unfold checkedNextMultipleOf
  rw [if_pos (Nat.mod_eq_zero_of_dvd (dvd_of_checkedNextMultipleOf h))]

/-- Rounding up does not make less of an amount. -/
theorem le_of_checkedNextMultipleOf {n R : Nat} (h : checkedNextMultipleOf n = some R) :
    n ≤ R := by
  unfold checkedNextMultipleOf at h
  split at h
  · cases h
    exact Nat.le_refl _
  · split at h
    · cases h
      exact Nat.le_add_right _ _
    · cases h

end EphMemory.Libephmem
