import EphMemory.Lib.OrdMap

/-!
# Slots and the map of what is in them

A table of slots, some of them blank, and a map from keys to slot numbers.
The table has at most one slot for a key, and the map is its inverse.
Numbers are integers, as a program keeps them.

* `Inverse` — the map says of every key which slot it is in;
* `Inverse.vacate`, `Inverse.fill` — a slot is made blank, a blank one filled;
* `Shifting` — between the two tables, when a slot is taken out and the keys
  behind it are renumbered one after the other;
* `Packed` — the blank slots are all at the end;
* `Opening` — but for one, which is to be filled or taken out.
-/

namespace EphMemory.Lib

variable {κ α : Type}

/-- The element at an index, which may be negative. -/
def at? (l : List α) (i : Int) : Option α := if 0 ≤ i then l[i.toNat]? else none

theorem at?_eq_some {l : List α} {i : Int} {a : α} :
    at? l i = some a ↔ ∃ n : Nat, i = n ∧ l[n]? = some a := by
  unfold at?
  constructor
  · intro h
    by_cases hi : 0 ≤ i
    · rw [if_pos hi] at h
      exact ⟨i.toNat, by omega, h⟩
    · rw [if_neg hi] at h
      cases h
  · rintro ⟨n, rfl, h⟩
    rw [if_pos (by omega), Int.toNat_natCast]
    exact h

@[simp] theorem at?_natCast (l : List α) (n : Nat) : at? l (n : Int) = l[n]? := by
  rw [at?, if_pos (by omega), Int.toNat_natCast]

-- ---------------------------------------------------------------------------
-- The map is the table's inverse
-- ---------------------------------------------------------------------------

/-- `find` and `slots` are inverse to each other, on all keys but `blank`. -/
def Inverse (blank : κ) (find : κ → Option Int) (slots : List κ) : Prop :=
  ∀ k i, find k = some i ↔ k ≠ blank ∧ at? slots i = some k

/-- No key is in two slots. -/
def Single (blank : κ) (slots : List κ) : Prop :=
  ∀ k (m n : Nat), k ≠ blank → slots[m]? = some k → slots[n]? = some k → m = n

namespace Inverse

variable {blank : κ} {find : κ → Option Int} {slots : List κ}

/-- Of an inverse, no key has two slots. -/
theorem single (h : Inverse blank find slots) : Single blank slots := by
  intro k m n hk hm hn
  have hFind := (h k m).mpr ⟨hk, at?_eq_some.mpr ⟨m, rfl, hm⟩⟩
  have hFind' := (h k n).mpr ⟨hk, at?_eq_some.mpr ⟨n, rfl, hn⟩⟩
  have := Option.some.inj (hFind.symm.trans hFind')
  omega

/-- The blank is never found. -/
theorem blank_none (h : Inverse blank find slots) : find blank = none := by
  rcases hFind : find blank with _ | i
  · rfl
  · exact absurd rfl ((h blank i).mp hFind).1

/-- The key of a slot is found there. -/
theorem find_of_slot (h : Inverse blank find slots) {k : κ} {n : Nat} (hk : k ≠ blank)
    (hSlot : slots[n]? = some k) : find k = some (n : Int) :=
  (h k n).mpr ⟨hk, at?_eq_some.mpr ⟨n, rfl, hSlot⟩⟩

/-- What is found is a slot of the key. -/
theorem slot_of_find (h : Inverse blank find slots) {k : κ} {i : Int} (hFind : find k = some i) :
    ∃ n : Nat, i = n ∧ slots[n]? = some k ∧ k ≠ blank := by
  obtain ⟨hk, hSlot⟩ := (h k i).mp hFind
  obtain ⟨n, hi, hn⟩ := at?_eq_some.mp hSlot
  exact ⟨n, hi, hn, hk⟩

/-- With every slot blank nothing is found. -/
theorem init (blank : κ) (n : Nat) : Inverse blank (fun _ => none) (List.replicate n blank) := by
  intro k i
  refine ⟨fun h => absurd h (by simp), ?_⟩
  rintro ⟨hk, hSlot⟩
  obtain ⟨m, -, hm⟩ := at?_eq_some.mp hSlot
  exact absurd (List.eq_of_mem_replicate (List.mem_of_getElem? hm)) hk

variable [DecidableEq κ]

/-- The key of a slot is dropped and the slot made blank. -/
theorem vacate (h : Inverse blank find slots) {k : κ} {n : Nat} (hSlot : slots[n]? = some k)
    (hk : k ≠ blank) :
    Inverse blank (fun k' => if k' = k then none else find k') (slots.set n blank) := by
  intro k' i
  simp only [at?_eq_some, List.getElem?_set]
  by_cases heq : k' = k
  · subst heq
    rw [if_pos rfl]
    refine ⟨fun hNone => absurd hNone (by simp), ?_⟩
    rintro ⟨-, m, -, hm⟩
    split at hm
    · split at hm
      · exact absurd (Option.some.inj hm).symm hk
      · cases hm
    · rename_i hne
      exact absurd (h.single k' n m hk hSlot hm) hne
  · rw [if_neg heq, h k' i, at?_eq_some]
    refine and_congr_right fun hk' => exists_congr fun m => and_congr_right fun _ => ?_
    split
    · rename_i hmn
      subst hmn
      rw [hSlot]
      constructor
      · intro hm
        exact absurd (Option.some.inj hm).symm heq
      · intro hm
        split at hm
        · exact absurd (Option.some.inj hm).symm hk'
        · cases hm
    · exact Iff.rfl

/-- A key the table does not have is put into a blank slot. -/
theorem fill (h : Inverse blank find slots) {k : κ} {n : Nat} (hSlot : slots[n]? = some blank)
    (hk : k ≠ blank) (hNew : find k = none) :
    Inverse blank (fun k' => if k' = k then some (n : Int) else find k') (slots.set n k) := by
  have hLen : n < slots.length := (List.getElem?_eq_some_iff.mp hSlot).1
  intro k' i
  simp only [at?_eq_some, List.getElem?_set]
  by_cases heq : k' = k
  · subst heq
    rw [if_pos rfl]
    constructor
    · intro hi
      refine ⟨hk, n, (Option.some.inj hi).symm, ?_⟩
      rw [if_pos rfl, if_pos hLen]
    · rintro ⟨-, m, rfl, hm⟩
      split at hm
      · rename_i hmn
        rw [hmn]
      · rw [h.find_of_slot hk hm] at hNew
        cases hNew
  · rw [if_neg heq, h k' i, at?_eq_some]
    refine and_congr_right fun hk' => exists_congr fun m => and_congr_right fun _ => ?_
    split
    · rename_i hmn
      subst hmn
      rw [hSlot]
      constructor
      · intro hm
        exact absurd (Option.some.inj hm).symm hk'
      · intro hm
        exact absurd (Option.some.inj hm).symm heq
    · exact Iff.rfl

end Inverse

-- ---------------------------------------------------------------------------
-- Taking a slot out
-- ---------------------------------------------------------------------------

/-- The map when a slot has been taken out of the table and the keys before
slot `i` have their numbers; the keys from there on still have the next one. -/
def Shifting (blank : κ) (find : κ → Option Int) (slots : List κ) (i : Nat) : Prop :=
  ∀ k j, find k = some j ↔ k ≠ blank ∧ ∃ n : Nat, slots[n]? = some k ∧
    (n < i ∧ j = n ∨ i ≤ n ∧ j = n + 1)

/-- Without one slot no key has two slots either. -/
theorem Single.eraseIdx {blank : κ} {slots : List κ} (h : Single blank slots) (i : Nat) :
    Single blank (slots.eraseIdx i) := by
  intro k m n hk hm hn
  rw [List.getElem?_eraseIdx] at hm hn
  split at hm <;> split at hn <;> have := h k _ _ hk hm hn <;> omega

namespace Shifting

variable {blank : κ} {find : κ → Option Int} {slots : List κ} {i : Nat}

/-- The key of the slot is dropped first. -/
theorem start [DecidableEq κ] (h : Inverse blank find slots) {k : κ} (hSlot : slots[i]? = some k) :
    Shifting blank (fun k' => if k' = k then none else find k') (slots.eraseIdx i) i := by
  intro k' j
  beta_reduce
  by_cases heq : k' = k
  · subst heq
    rw [if_pos rfl]
    refine ⟨fun hNone => absurd hNone (by simp), ?_⟩
    rintro ⟨hk, n, hn, -⟩
    rw [List.getElem?_eraseIdx] at hn
    split at hn <;> have := h.single k' _ _ hk hSlot hn <;> omega
  · rw [if_neg heq, h k' j, at?_eq_some]
    refine and_congr_right fun _ => ?_
    simp only [List.getElem?_eraseIdx]
    constructor
    · rintro ⟨n, rfl, hn⟩
      rcases Nat.lt_trichotomy n i with hLt | rfl | hGt
      · exact ⟨n, by rw [if_pos hLt]; exact hn, Or.inl ⟨hLt, rfl⟩⟩
      · rw [hSlot] at hn
        exact absurd (Option.some.inj hn).symm heq
      · have hPred : n - 1 + 1 = n := by omega
        exact ⟨n - 1, by rw [if_neg (by omega), hPred]; exact hn, Or.inr ⟨by omega, by omega⟩⟩
    · rintro ⟨n, hn, ⟨hLt, rfl⟩ | ⟨hGe, rfl⟩⟩
      · rw [if_pos hLt] at hn
        exact ⟨n, rfl, hn⟩
      · rw [if_neg (by omega)] at hn
        exact ⟨n + 1, rfl, hn⟩

/-- A blank slot has no key to renumber. -/
theorem skip (h : Shifting blank find slots i) (hSlot : slots[i]? = some blank) :
    Shifting blank find slots (i + 1) := by
  intro k j
  rw [h k j]
  refine and_congr_right fun hk => exists_congr fun n => and_congr_right fun hn => ?_
  have hne : n ≠ i := by
    rintro rfl
    rw [hSlot] at hn
    exact hk (Option.some.inj hn).symm
  omega

/-- The next key gets its number. -/
theorem step [DecidableEq κ] (h : Shifting blank find slots i) (hSingle : Single blank slots)
    {k : κ} (hSlot : slots[i]? = some k) (hk : k ≠ blank) :
    Shifting blank (fun k' => if k' = k then some (i : Int) else find k') slots (i + 1) := by
  intro k' j
  beta_reduce
  by_cases heq : k' = k
  · subst heq
    rw [if_pos rfl]
    constructor
    · intro hj
      exact ⟨hk, i, hSlot, Or.inl ⟨by omega, (Option.some.inj hj).symm⟩⟩
    · rintro ⟨-, n, hn, hNumber⟩
      have := hSingle k' i n hk hSlot hn
      congr 1
      omega
  · rw [if_neg heq, h k' j]
    refine and_congr_right fun _ => exists_congr fun n => and_congr_right fun hn => ?_
    have hne : n ≠ i := by
      rintro rfl
      rw [hSlot] at hn
      exact heq (Option.some.inj hn).symm
    omega

/-- All keys have their numbers. -/
theorem done (h : Shifting blank find slots slots.length) : Inverse blank find slots := by
  intro k j
  rw [h k j, at?_eq_some]
  refine and_congr_right fun _ => exists_congr fun n => ?_
  constructor
  · rintro ⟨hn, hNumber⟩
    have := (List.getElem?_eq_some_iff.mp hn).1
    exact ⟨by omega, hn⟩
  · rintro ⟨rfl, hn⟩
    exact ⟨hn, Or.inl ⟨(List.getElem?_eq_some_iff.mp hn).1, rfl⟩⟩

end Shifting

-- ---------------------------------------------------------------------------
-- The blank slots are at the end
-- ---------------------------------------------------------------------------

/-- The slots hold `keys`, in order, and nothing behind them. -/
structure Packed (blank : κ) (keys slots : List κ) : Prop where
  used : blank ∉ keys
  slots_eq : slots = keys ++ List.replicate (slots.length - keys.length) blank

namespace Packed

variable {blank : κ} {keys slots : List κ}

/-- With every slot blank there are no keys. -/
theorem init (blank : κ) (n : Nat) : Packed blank [] (List.replicate n blank) :=
  ⟨List.not_mem_nil, by simp⟩

theorem of_append (h : blank ∉ keys) (n : Nat) :
    Packed blank keys (keys ++ List.replicate n blank) :=
  ⟨h, by simp⟩

theorem length_le (h : Packed blank keys slots) : keys.length ≤ slots.length := by
  have := congrArg List.length h.slots_eq
  rw [List.length_append, List.length_replicate] at this
  omega

/-- The slots in use are the first ones. -/
theorem getElem? (h : Packed blank keys slots) {n : Nat} {k : κ} (hn : slots[n]? = some k) :
    keys[n]? = some k ∧ n < keys.length ∧ k ≠ blank ∨ keys.length ≤ n ∧ k = blank := by
  rw [h.slots_eq, List.getElem?_append] at hn
  split at hn
  · rename_i hLt
    refine Or.inl ⟨hn, hLt, ?_⟩
    rintro rfl
    exact h.used (List.mem_of_getElem? hn)
  · rename_i hGe
    exact Or.inr ⟨by omega, List.eq_of_mem_replicate (List.mem_of_getElem? hn)⟩

/-- The `n`-th key is in the `n`-th slot. -/
theorem slot_of_key (h : Packed blank keys slots) {n : Nat} {k : κ} (hn : keys[n]? = some k) :
    slots[n]? = some k := by
  rw [h.slots_eq, List.getElem?_append_left (List.getElem?_eq_some_iff.mp hn).1]
  exact hn

/-- The first blank slot. -/
theorem slot_next (h : Packed blank keys slots) (hRoom : keys.length < slots.length) :
    slots[keys.length]? = some blank := by
  rw [h.slots_eq, List.getElem?_append_right (Nat.le_refl _), Nat.sub_self,
    List.getElem?_replicate, if_pos (by omega)]

/-- The first blank slot is filled. -/
theorem push (h : Packed blank keys slots) (hRoom : keys.length < slots.length) {k : κ}
    (hk : k ≠ blank) : Packed blank (keys ++ [k]) (slots.set keys.length k) := by
  obtain ⟨r, hr⟩ : ∃ r, slots.length - keys.length = r + 1 := ⟨_, (Nat.sub_add_cancel
    (Nat.sub_pos_of_lt hRoom)).symm⟩
  have hSlots : slots.set keys.length k = (keys ++ [k]) ++ List.replicate r blank := by
    rw [h.slots_eq, hr, List.replicate_succ, List.set_append_right _ _ (Nat.le_refl _),
      Nat.sub_self, List.set_cons_zero, List.append_assoc]
    rfl
  rw [hSlots]
  refine of_append (fun hMem => ?_) r
  rcases List.mem_append.mp hMem with hOld | hNew
  · exact h.used hOld
  · exact hk (List.mem_singleton.mp hNew).symm

/-- A key is put in the place of another. -/
theorem replace (h : Packed blank keys slots) {n : Nat} (hn : n < keys.length) {k : κ}
    (hk : k ≠ blank) : Packed blank (keys.set n k) (slots.set n k) := by
  have hSlots : slots.set n k =
      keys.set n k ++ List.replicate (slots.length - keys.length) blank := by
    conv_lhs => rw [h.slots_eq]
    rw [List.set_append_left _ _ hn]
  rw [hSlots]
  refine of_append (fun hMem => ?_) _
  rcases List.mem_or_eq_of_mem_set hMem with hOld | hNew
  · exact h.used hOld
  · exact hk hNew.symm

/-- A slot in use is taken out. -/
theorem eraseIdx (h : Packed blank keys slots) {n : Nat} (hn : n < keys.length) :
    Packed blank (keys.eraseIdx n) (slots.eraseIdx n) := by
  have hSlots : slots.eraseIdx n =
      keys.eraseIdx n ++ List.replicate (slots.length - keys.length) blank := by
    conv_lhs => rw [h.slots_eq]
    rw [List.eraseIdx_append_of_lt_length hn]
  rw [hSlots]
  exact of_append (fun hMem => h.used (List.mem_of_mem_eraseIdx hMem)) _

/-- The first blank slot is taken out. -/
theorem eraseIdx_next (h : Packed blank keys slots) (hRoom : keys.length < slots.length) :
    Packed blank keys (slots.eraseIdx keys.length) := by
  obtain ⟨r, hr⟩ : ∃ r, slots.length - keys.length = r + 1 := ⟨_, (Nat.sub_add_cancel
    (Nat.sub_pos_of_lt hRoom)).symm⟩
  have hSlots : slots.eraseIdx keys.length = keys ++ List.replicate r blank := by
    rw [h.slots_eq, hr, List.replicate_succ, List.eraseIdx_append_of_length_le (Nat.le_refl _),
      Nat.sub_self, List.eraseIdx_cons_zero]
  rw [hSlots]
  exact of_append h.used r

/-- The keys are those of the map. -/
theorem mem_iff {find : κ → Option Int} (h : Packed blank keys slots)
    (hInverse : Inverse blank find slots) {k : κ} : k ∈ keys ↔ ∃ i, find k = some i := by
  constructor
  · intro hk
    obtain ⟨n, hn⟩ := List.mem_iff_getElem?.mp hk
    have hne : k ≠ blank := fun heq => h.used (heq ▸ hk)
    exact ⟨n, hInverse.find_of_slot hne (h.slot_of_key hn)⟩
  · rintro ⟨i, hi⟩
    obtain ⟨n, -, hn, hne⟩ := hInverse.slot_of_find hi
    rcases h.getElem? hn with ⟨hKey, -, -⟩ | ⟨-, heq⟩
    · exact List.mem_of_getElem? hKey
    · exact absurd heq hne

/-- Packed keys with one slot each are all different. -/
theorem nodup (h : Packed blank keys slots) (hSingle : Single blank slots) : keys.Nodup := by
  rw [List.nodup_iff_getElem?_ne_getElem?]
  intro m n hmn hn heq
  have hk : keys[n]? = some keys[n] := List.getElem?_eq_getElem hn
  have hne : keys[n] ≠ blank := fun hb => h.used (hb ▸ List.mem_of_getElem? hk)
  have := hSingle _ m n hne (h.slot_of_key (heq.trans hk)) (h.slot_of_key hk)
  omega

end Packed

/-- A blank slot, which may be between others: with it filled, or taken out,
the slots hold `keys` without a gap. -/
structure Opening (blank : κ) (keys slots : List κ) (n : Nat) : Prop where
  slot : slots[n]? = some blank
  fill : ∀ k, k ≠ blank → ∃ keys', Packed blank keys' (slots.set n k) ∧
    ∀ k', k' ∈ keys' ↔ k' ∈ keys ∨ k' = k
  takeOut : Packed blank keys (slots.eraseIdx n)

namespace Packed

variable {blank : κ} {keys slots : List κ}

/-- The first blank slot. -/
theorem opening_next (h : Packed blank keys slots) (hRoom : keys.length < slots.length) :
    Opening blank keys slots keys.length where
  slot := h.slot_next hRoom
  fill k hk := ⟨keys ++ [k], h.push hRoom hk, fun k' => by
    rw [List.mem_append, List.mem_singleton]⟩
  takeOut := h.eraseIdx_next hRoom

/-- A slot whose key is dropped. -/
theorem opening_vacated (h : Packed blank keys slots) {n : Nat} (hn : n < keys.length) :
    Opening blank (keys.eraseIdx n) (slots.set n blank) n where
  slot := by
    have := h.length_le
    rw [List.getElem?_set, if_pos rfl, if_pos (by omega)]
  fill k hk := by
    refine ⟨keys.set n k, ?_, fun k' => ?_⟩
    · rw [List.set_set]
      exact h.replace hn hk
    · rw [List.set_eq_take_append_cons_drop, if_pos hn, List.eraseIdx_eq_take_drop_succ,
        List.mem_append, List.mem_cons, List.mem_append]
      tauto
  takeOut := by
    have hSame : (slots.set n blank).eraseIdx n = slots.eraseIdx n := by
      rw [List.eraseIdx_set_eq]
    rw [hSame]
    exact h.eraseIdx hn

end Packed

/-- The map has as many entries as there are slots in use. -/
theorem OrdMap.size_eq_length [LinearOrder κ] {blank : κ} {m : OrdMap κ Int} {keys slots : List κ}
    (h : Packed blank keys slots) (hInverse : Inverse blank m.get? slots) :
    m.size = keys.length := by
  have hPerm : m.keys.Perm keys := by
    rw [List.perm_ext_iff_of_nodup m.keys_nodup (h.nodup hInverse.single)]
    intro k
    rw [OrdMap.mem_keys_iff, h.mem_iff hInverse]
  rw [← hPerm.length_eq]
  exact (List.length_map ..).symm

end EphMemory.Lib
