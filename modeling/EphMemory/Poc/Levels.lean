import EphMemory.Poc.Cache

/-!
# Proof of concept — the two levels

At the start of every iteration each level has its blocks in its first slots,
the map and the vector of ids are inverse to each other, and a slot holds the
block it is said to hold. Inside an iteration a slot may be empty between
others, when its block has just been evicted; whether it is filled or taken
out with the memory it is in, the slots in use are the first ones again.

* `Table` — what holds of a level all the time;
* `Tables` — of both, and of the numbers the draws depend on;
* `Holds` — at the start of an iteration, with the ids in slot order;
* `Holds.iteration` — an iteration;
* `poc_cache_invariant` — every run.
-/

namespace EphMemory.Poc

open EphMemory.Lib

-- ---------------------------------------------------------------------------
-- Integers and indices
-- ---------------------------------------------------------------------------

theorem toInt_of_lt {n : Nat} (h : n < 2 ^ 31) : toInt n = n := by
  unfold toInt Int.bmod
  simp only
  split <;> omega

theorem pred64_of_pos {n : Nat} (h : 0 < n) (hn : n < 2 ^ 31) : pred64 n = n - 1 := by
  unfold pred64
  omega

/-- An index in range reads the element. -/
theorem get_of_getElem? {α : Type} {l : List α} {n : Nat} {a : α} (h : l[n]? = some a) :
    get l (n : Int) = .ok a := by
  rw [get, at?_natCast, h]

/-- A draw is in its range. -/
theorem uniform_spec {hi : Int} (h : 0 ≤ hi) (r : Nat) :
    ∃ n : Nat, uniform hi r = n ∧ (n : Int) ≤ hi := by
  have hPos : 0 < hi + 1 := by omega
  have hLo : 0 ≤ uniform hi r := Int.emod_nonneg (r : Int) (ne_of_gt hPos)
  have hHi : uniform hi r < hi + 1 := Int.emod_lt_of_pos (r : Int) hPos
  exact ⟨(uniform hi r).toNat, (Int.toNat_of_nonneg hLo).symm, by omega⟩

theorem lastIndex_of_pos {n : Nat} (h : 0 < n) (hn : n < 2 ^ 31) :
    lastIndex n = (n : Int) - 1 := by
  rw [lastIndex, if_pos h, toInt_of_lt (by omega)]
  omega

-- ---------------------------------------------------------------------------
-- A level
-- ---------------------------------------------------------------------------

/-- A level of `max` slots, where a slot without a block may be anywhere. -/
structure Table (set : OrdMap Int Int) (rmap : List Int) (slots : List Nat)
    (data : Nat → Option Block) (max : Nat) : Prop where
  inverse : Inverse (-1) set.get? rmap
  rmapLength : rmap.length = max
  slotsLength : slots.length = max
  distinct : slots.Nodup
  live : ∀ p ∈ slots, ∃ block, data p = some block
  contents : ∀ (n : Nat) id p, rmap[n]? = some id → id ≠ -1 → slots[n]? = some p →
    data p = some (fillBlock id)

namespace Table

variable {set : OrdMap Int Int} {rmap : List Int} {slots : List Nat}
  {data data' : Nat → Option Block} {max n : Nat} {id : Int}

/-- Every slot in range points to a live block. -/
theorem slot (h : Table set rmap slots data max) (hn : n < max) :
    ∃ p block, slots[n]? = some p ∧ data p = some block := by
  have hLen : n < slots.length := h.slotsLength ▸ hn
  obtain ⟨block, hBlock⟩ := h.live _ (List.getElem_mem hLen)
  exact ⟨_, block, List.getElem?_eq_getElem hLen, hBlock⟩

/-- A slot of the reverse map is in range. -/
theorem lt_max (h : Table set rmap slots data max) (hSlot : rmap[n]? = some id) : n < max :=
  h.rmapLength ▸ (List.getElem?_eq_some_iff.mp hSlot).1

/-- The block of a slot is dropped. -/
theorem vacate (h : Table set rmap slots data max) (hSlot : rmap[n]? = some id) (hId : id ≠ -1) :
    Table (set.erase id) (rmap.set n (-1)) slots data max := by
  refine ⟨?_, ?_, h.slotsLength, h.distinct, h.live, fun m id' p hm hId' hp => ?_⟩
  · have hGet : (set.erase id).get? = fun k => if k = id then none else set.get? k :=
      funext fun k => OrdMap.get?_erase ..
    rw [hGet]
    exact h.inverse.vacate hSlot hId
  · rw [List.length_set, h.rmapLength]
  · rw [List.getElem?_set] at hm
    split at hm
    · split at hm
      · exact absurd (Option.some.inj hm).symm hId'
      · cases hm
    · exact h.contents m id' p hm hId' hp

/-- A block is put into an empty slot. -/
theorem fill (h : Table set rmap slots data max) (hSlot : rmap[n]? = some (-1)) (hId : id ≠ -1)
    (hNew : set.get? id = none) {p : Nat} (hp : slots[n]? = some p)
    (hData : data' p = some (fillBlock id)) (hOther : ∀ q, q ≠ p → data' q = data q) :
    Table (set.insert id n) (rmap.set n id) slots data' max := by
  have hLen : n < rmap.length := (List.getElem?_eq_some_iff.mp hSlot).1
  refine ⟨?_, ?_, h.slotsLength, h.distinct, fun q hq => ?_, fun m id' q hm hId' hq => ?_⟩
  · have hGet : (set.insert id n).get? = fun k => if k = id then some (n : Int) else set.get? k :=
      funext fun k => OrdMap.get?_insert ..
    rw [hGet]
    exact h.inverse.fill hSlot hId hNew
  · rw [List.length_set, h.rmapLength]
  · by_cases heq : q = p
    · exact ⟨_, heq ▸ hData⟩
    · rw [hOther q heq]
      exact h.live q hq
  · rw [List.getElem?_set] at hm
    by_cases hmn : n = m
    · subst hmn
      rw [if_pos rfl, if_pos hLen] at hm
      rw [← Option.some.inj hm, ← Option.some.inj (hp.symm.trans hq)]
      exact hData
    · rw [if_neg hmn] at hm
      -- the slots are different pieces of memory
      have hne : q ≠ p := by
        rintro rfl
        obtain ⟨hLt, hEq⟩ := List.getElem?_eq_some_iff.mp hp
        obtain ⟨hLt', hEq'⟩ := List.getElem?_eq_some_iff.mp hq
        exact hmn ((List.Nodup.getElem_inj_iff h.distinct).mp (hEq.trans hEq'.symm))
      rw [hOther q hne]
      exact h.contents m id' q hm hId' hq

/-- A slot is taken out and its memory freed. -/
theorem takeOut (h : Table set rmap slots data max) {set' : OrdMap Int Int}
    (hInverse : Inverse (-1) set'.get? (rmap.eraseIdx n)) (hn : n < max) {p : Nat}
    (hp : slots[n]? = some p) :
    Table set' (rmap.eraseIdx n) (slots.eraseIdx n) (Function.update data p none) (max - 1) := by
  obtain ⟨hLt, hEq⟩ := List.getElem?_eq_some_iff.mp hp
  have hOther : ∀ q ∈ slots.eraseIdx n, q ≠ p := by
    rintro q hq rfl
    obtain ⟨m, hm, hne, hEq'⟩ := List.mem_eraseIdx_iff_getElem.mp hq
    exact hne ((List.Nodup.getElem_inj_iff h.distinct).mp (hEq'.trans hEq.symm))
  refine ⟨hInverse, ?_, ?_, h.distinct.eraseIdx n, fun q hq => ?_, fun m id q hm hId hq => ?_⟩
  · rw [List.length_eraseIdx_of_lt (h.rmapLength ▸ hn), h.rmapLength]
  · rw [List.length_eraseIdx_of_lt hLt, h.slotsLength]
  · rw [Function.update_of_ne (hOther q hq)]
    exact h.live q (List.mem_of_mem_eraseIdx hq)
  · rw [Function.update_of_ne (hOther q (List.mem_of_getElem? hq))]
    rw [List.getElem?_eraseIdx] at hm hq
    split at hm
    · rename_i hLess
      rw [if_pos hLess] at hq
      exact h.contents m id q hm hId hq
    · rename_i hMore
      rw [if_neg hMore] at hq
      exact h.contents (m + 1) id q hm hId hq

end Table

/-- The loop of `handle_revoked_ephmem` gives every key behind the slot its
new number. -/
theorem renumber_spec {rmap : List Int} (hSingle : Single (-1) rmap) (hLen : rmap.length < 2 ^ 31)
    {count i : Nat} (hCount : i + count = rmap.length) {set : OrdMap Int Int}
    (h : Shifting (-1) set.get? rmap i) :
    ∃ set', renumber rmap set i count = .ok set' ∧ Inverse (-1) set'.get? rmap := by
  induction count generalizing i set with
  | zero =>
    have hi : i = rmap.length := by omega
    exact ⟨set, rfl, (hi ▸ h).done⟩
  | succ count ih =>
    have hi : i < rmap.length := by omega
    have hSlot : rmap[i]? = some rmap[i] := List.getElem?_eq_getElem hi
    rw [renumber, get_of_getElem? hSlot]
    simp only
    refine ih (by omega) ?_
    by_cases hBlank : rmap[i] = -1
    · rw [if_neg (not_not.mpr hBlank)]
      exact h.skip (hBlank ▸ hSlot)
    · have hGet : (set.insert rmap[i] (toInt i)).get? =
          fun k => if k = rmap[i] then some (i : Int) else set.get? k := by
        rw [toInt_of_lt (by omega)]
        exact funext fun k => OrdMap.get?_insert ..
      rw [if_pos hBlank, hGet]
      exact h.step hSingle hSlot hBlank

-- ---------------------------------------------------------------------------
-- Both levels, inside an iteration
-- ---------------------------------------------------------------------------

structure Tables (s : Cache) : Prop where
  mainTable : Table s.mainMemorySet s.mainMemoryRmap s.mainMemory (fun p => some (s.mainBlock p))
    s.maxMainMemoryBlocks
  ephTable : Table s.ephMemorySet s.ephMemoryRmap s.ephMemory s.ephBlock s.maxEphMemoryBlocks
  mainPos : 0 < s.maxMainMemoryBlocks
  mainSmall : s.maxMainMemoryBlocks < 2 ^ 31
  ephSmall : s.maxEphMemoryBlocks < 2 ^ 31
  blockSelector : 0 ≤ s.blockSelector
  mainSelector : s.mainMemoryEvictionSelector = s.maxMainMemoryBlocks - 1
  ephSelector : s.ephMemoryEvictionSelector = lastIndex s.maxEphMemoryBlocks

/-- Main memory is as before. -/
structure SameMain (s s' : Cache) : Prop where
  set : s'.mainMemorySet = s.mainMemorySet
  rmap : s'.mainMemoryRmap = s.mainMemoryRmap
  memory : s'.mainMemory = s.mainMemory
  block : s'.mainBlock = s.mainBlock

/-- With a slot in range, `handle_revoked_ephmem` takes it out. -/
theorem Tables.handleRevoked {s : Cache} (h : Tables s) {n : Nat} (hn : n < s.maxEphMemoryBlocks) :
    ∃ s', s.handleRevoked n = .ok s' ∧ Tables s' ∧ SameMain s s' ∧
      s'.ephMemoryRmap = s.ephMemoryRmap.eraseIdx n ∧
      ∀ id, s.ephMemorySet.get? id = none → s'.ephMemorySet.get? id = none := by
  have hLen : n < s.ephMemoryRmap.length := h.ephTable.rmapLength ▸ hn
  have hSmall := h.ephSmall
  have hSlot : s.ephMemoryRmap[n]? = some s.ephMemoryRmap[n] := List.getElem?_eq_getElem hLen
  obtain ⟨p, -, hp, -⟩ := h.ephTable.slot hn
  have hMax := pred64_of_pos (by omega) hSmall
  -- erasing the id -1 would do nothing
  have hErased : (if s.ephMemoryRmap[n] ≠ -1 then s.ephMemorySet.erase s.ephMemoryRmap[n]
      else s.ephMemorySet).get? =
        fun k => if k = s.ephMemoryRmap[n] then none else s.ephMemorySet.get? k := by
    funext k
    split
    · exact OrdMap.get?_erase ..
    · rename_i hBlank
      split
      · rename_i heq
        rw [heq, not_not.mp hBlank]
        exact h.ephTable.inverse.blank_none
      · rfl
  have hErasedLen : (s.ephMemoryRmap.eraseIdx n).length = s.maxEphMemoryBlocks - 1 := by
    rw [List.length_eraseIdx_of_lt hLen, h.ephTable.rmapLength]
  have hStart : Shifting (-1) (if s.ephMemoryRmap[n] ≠ -1 then
      s.ephMemorySet.erase s.ephMemoryRmap[n] else s.ephMemorySet).get?
      (s.ephMemoryRmap.eraseIdx n) n := by
    rw [hErased]
    exact Shifting.start h.ephTable.inverse hSlot
  have hCount : n + (s.maxEphMemoryBlocks - 1 - n) = (s.ephMemoryRmap.eraseIdx n).length := by
    omega
  obtain ⟨set', hLoop, hInverse⟩ := renumber_spec (h.ephTable.inverse.single.eraseIdx n)
    (by omega) hCount hStart
  have hRun : s.handleRevoked n = .ok { s with
      ephMemory := s.ephMemory.eraseIdx n
      ephBlock := Function.update s.ephBlock p none
      ephMemorySet := set'
      ephMemoryRmap := s.ephMemoryRmap.eraseIdx n
      maxEphMemoryBlocks := s.maxEphMemoryBlocks - 1
      ephMemoryEvictionSelector := lastIndex (s.maxEphMemoryBlocks - 1) } := by
    unfold Cache.handleRevoked
    rw [get_of_getElem? hSlot, get_of_getElem? hp, hMax, Int.toNat_natCast]
    simp only [bind, Except.bind]
    rw [hLoop]
    rfl
  refine ⟨_, hRun, ⟨h.mainTable, h.ephTable.takeOut hInverse hn hp, h.mainPos, h.mainSmall, ?_,
    h.blockSelector, h.mainSelector, rfl⟩, ⟨rfl, rfl, rfl, rfl⟩, rfl, fun id hNone => ?_⟩
  · show s.maxEphMemoryBlocks - 1 < 2 ^ 31
    omega
  · rcases hFind : set'.get? id with _ | i
    · rfl
    · obtain ⟨m, -, hm, hne⟩ := hInverse.slot_of_find hFind
      rw [List.getElem?_eraseIdx] at hm
      split at hm <;> rw [h.ephTable.inverse.find_of_slot hne hm] at hNone <;> cases hNone

-- ---------------------------------------------------------------------------
-- An iteration
-- ---------------------------------------------------------------------------

/-- What the program says when `libephmem_attempt` or `libephmem_put` gives -1. -/
def invalidAttempt : Exit := .error "Invalid arguments for libephmem_attempt"

def invalidPut : Exit := .error "Invalid arguments for libephmem_put"

/-- The levels at the start of an iteration, with the ids of their blocks in
slot order. -/
structure Holds (s : Cache) (main eph : List Int) : Prop extends Tables s where
  mainPacked : Packed (-1) main s.mainMemoryRmap
  ephPacked : Packed (-1) eph s.ephMemoryRmap
  disjoint : ∀ id ∈ main, id ∉ eph

/-- The levels when slot `n` of main memory is to be loaded. -/
structure Between (s : Cache) (main eph : List Int) (n : Nat) : Prop extends Tables s where
  opening : Opening (-1) main s.mainMemoryRmap n
  ephPacked : Packed (-1) eph s.ephMemoryRmap
  disjoint : ∀ id ∈ main, id ∉ eph

/-- The sum an access gets is that over the block it asked for. -/
def Access.Of (blockId : Int) : Access → Prop
  | .mainHit sum => sum = computeBlockSum (fillBlock blockId)
  | .ephHit sum => sum = computeBlockSum (fillBlock blockId)
  | .miss sum => sum = computeBlockSum (fillBlock blockId)

namespace Between

variable {s : Cache} {main eph : List Int} {n : Nat}

/-- Loading a block that is at neither level puts it into main memory. -/
theorem load (h : Between s main eph n) {id : Int} (hId : id ≠ -1)
    (hNew : s.mainMemorySet.get? id = none) (hEph : id ∉ eph) :
    ∃ a s' main', s.load id n = .ok (a, s') ∧ a.Of id ∧ Holds s' main' eph := by
  have hSlot := h.opening.slot
  obtain ⟨p, -, hp, -⟩ := h.mainTable.slot (h.mainTable.lt_max hSlot)
  obtain ⟨main', hPacked, hMem⟩ := h.opening.fill id hId
  have hData : some (Function.update s.mainBlock p (fillBlock id) p) = some (fillBlock id) := by
    rw [Function.update_self]
  have hOther : ∀ q, q ≠ p →
      some (Function.update s.mainBlock p (fillBlock id) q) = some (s.mainBlock q) :=
    fun q hq => by rw [Function.update_of_ne hq]
  have hTable := h.mainTable.fill hSlot hId hNew hp hData hOther
  refine ⟨.miss (computeBlockSum (Function.update s.mainBlock p (fillBlock id) p)), { s with
    mainBlock := Function.update s.mainBlock p (fillBlock id)
    mainMemorySet := s.mainMemorySet.insert id n
    mainMemoryRmap := s.mainMemoryRmap.set n id }, main', ?_, ?_, ⟨⟨hTable, h.ephTable, h.mainPos, h.mainSmall, h.ephSmall,
    h.blockSelector, h.mainSelector, h.ephSelector⟩, hPacked, h.ephPacked, fun k hk => ?_⟩⟩
  · unfold Cache.load
    rw [get_of_getElem? hp]
    simp only [bind, Except.bind, Int.toNat_natCast]
    rfl
  · show computeBlockSum (Function.update s.mainBlock p (fillBlock id) p) = _
    rw [Function.update_self]
  · rcases (hMem k).mp hk with hOld | rfl
    · exact h.disjoint k hOld
    · exact hEph

end Between

namespace Holds

variable {s : Cache} {main eph : List Int}

/-- The map has as many entries as main memory has blocks. -/
theorem mainSize (h : Holds s main eph) : s.mainMemorySet.size = main.length :=
  OrdMap.size_eq_length h.mainPacked h.mainTable.inverse

/-- The map has as many entries as ephemeral memory has blocks. -/
theorem ephSize (h : Holds s main eph) : s.ephMemorySet.size = eph.length :=
  OrdMap.size_eq_length h.ephPacked h.ephTable.inverse

/-- Main memory is not overfull. -/
theorem mainLength (h : Holds s main eph) : main.length ≤ s.maxMainMemoryBlocks :=
  h.mainTable.rmapLength ▸ h.mainPacked.length_le

/-- Ephemeral memory is not overfull. -/
theorem ephLength (h : Holds s main eph) : eph.length ≤ s.maxEphMemoryBlocks :=
  h.ephTable.rmapLength ▸ h.ephPacked.length_le

/-- What is not in ephemeral memory is not found there. -/
theorem ephNone (h : Holds s main eph) {id : Int} (hId : id ∉ eph) :
    s.ephMemorySet.get? id = none := by
  rcases hFind : s.ephMemorySet.get? id with _ | i
  · rfl
  · exact absurd ((h.ephPacked.mem_iff h.ephTable.inverse).mpr ⟨i, hFind⟩) hId

/-- The slot a block is evicted to is open. -/
theorem ephSlot (h : Holds s main eph) (d : Draws) :
    (s.maxEphMemoryBlocks = 0 ∧ s.ephSlot d = .ok (s, -1)) ∨
      ∃ s' eph' n, s.ephSlot d = .ok (s', (n : Nat)) ∧ Tables s' ∧ SameMain s s' ∧
        Opening (-1) eph' s'.ephMemoryRmap n ∧ (∀ id ∈ eph', id ∈ eph) ∧
        ∀ id, s.ephMemorySet.get? id = none → s'.ephMemorySet.get? id = none := by
  have hSize := h.ephSize
  have hLength := h.ephLength
  have hSmall := h.ephSmall
  by_cases hFull : s.ephMemorySet.size ≥ s.maxEphMemoryBlocks ∧ s.maxEphMemoryBlocks > 0
  · have hSelector : s.ephMemoryEvictionSelector = s.maxEphMemoryBlocks - 1 := by
      rw [h.ephSelector, lastIndex_of_pos hFull.2 hSmall]
    have hNonneg : 0 ≤ s.ephMemoryEvictionSelector := by omega
    obtain ⟨n, hDraw, hn⟩ := uniform_spec hNonneg d.ephVictim
    have hIn : n < eph.length := by omega
    have hKey : eph[n]? = some eph[n] := List.getElem?_eq_getElem hIn
    have hSlot := h.ephPacked.slot_of_key hKey
    have hId : eph[n] ≠ -1 := fun hb => h.ephPacked.used (hb ▸ List.getElem_mem hIn)
    refine Or.inr ⟨{ s with
      ephMemorySet := s.ephMemorySet.erase eph[n]
      ephMemoryRmap := s.ephMemoryRmap.set n (-1) }, eph.eraseIdx n, n, ?_,
      ⟨h.mainTable, h.ephTable.vacate hSlot hId, h.mainPos, h.mainSmall, hSmall, h.blockSelector,
        h.mainSelector, h.ephSelector⟩, ⟨rfl, rfl, rfl, rfl⟩, h.ephPacked.opening_vacated hIn,
      fun id hid => List.mem_of_mem_eraseIdx hid, fun id hNone => ?_⟩
    · unfold Cache.ephSlot
      rw [if_pos hFull]
      simp only [hDraw, get_of_getElem? hSlot, bind, Except.bind, if_neg hId, Int.toNat_natCast]
      rfl
    · show (s.ephMemorySet.erase eph[n]).get? id = none
      rw [OrdMap.get?_erase]
      split
      · rfl
      · exact hNone
  · unfold Cache.ephSlot
    rw [if_neg hFull]
    by_cases hSome : s.maxEphMemoryBlocks > 0
    · have hRoom : eph.length < s.ephMemoryRmap.length := by
        rw [h.ephTable.rmapLength]
        omega
      rw [if_pos hSome, hSize, toInt_of_lt (by omega)]
      exact Or.inr ⟨s, eph, eph.length, rfl, h.toTables, ⟨rfl, rfl, rfl, rfl⟩,
        h.ephPacked.opening_next hRoom, fun _ hid => hid, fun _ hNone => hNone⟩
    · rw [if_neg hSome]
      exact Or.inl ⟨by omega, rfl⟩

end Holds

/-- An evicted block is put into an open slot, or is gone with the slot. -/
theorem Tables.moveToEph {s : Cache} (h : Tables s) (d : Draws) {eph : List Int} {m n : Nat}
    {id : Int} (hOpen : Opening (-1) eph s.ephMemoryRmap n) (hId : id ≠ -1)
    (hNew : s.ephMemorySet.get? id = none) {p : Nat} (hp : s.mainMemory[m]? = some p)
    (hBlock : s.mainBlock p = fillBlock id) :
    (∃ s' eph', s.moveToEph d id m n = .ok s' ∧ Tables s' ∧ SameMain s s' ∧
        Packed (-1) eph' s'.ephMemoryRmap ∧ ∀ k ∈ eph', k ∈ eph ∨ k = id) ∨
      d.put = .invalid ∧ s.moveToEph d id m n = .error invalidPut := by
  have hn := h.ephTable.lt_max hOpen.slot
  obtain ⟨q, block, hq, hLive⟩ := h.ephTable.slot hn
  have hContents : s.contents q = .ok block := by
    rw [Cache.contents, hLive]
  unfold Cache.moveToEph
  rw [get_of_getElem? hq, get_of_getElem? hp]
  simp only [bind, Except.bind, hContents]
  cases hPut : d.put with
  | revoked =>
    obtain ⟨s', hRun, hTables, hSame, hRmap, -⟩ := h.handleRevoked hn
    exact Or.inl ⟨s', eph, hRun, hTables, hSame, hRmap ▸ hOpen.takeOut, fun k hk => Or.inl hk⟩
  | invalid => exact Or.inr ⟨rfl, rfl⟩
  | success =>
    obtain ⟨eph', hPacked, hMem⟩ := hOpen.fill id hId
    have hTable := h.ephTable.fill hOpen.slot hId hNew hq
      (Function.update_self q (some (fillBlock id)) s.ephBlock)
      (fun r hr => Function.update_of_ne hr ..)
    refine Or.inl ⟨{ s with
      ephBlock := Function.update s.ephBlock q (some (fillBlock id))
      ephMemorySet := s.ephMemorySet.insert id n
      ephMemoryRmap := s.ephMemoryRmap.set n id }, eph', ?_, ⟨h.mainTable, hTable, h.mainPos,
        h.mainSmall, h.ephSmall, h.blockSelector, h.mainSelector, h.ephSelector⟩,
      ⟨rfl, rfl, rfl, rfl⟩, hPacked, fun k hk => (hMem k).mp hk⟩
    rw [hBlock, Int.toNat_natCast]
    rfl

namespace Holds

variable {s : Cache} {main eph : List Int}

/-- A block evicted leaves its slot open. -/
theorem evictBlock (h : Holds s main eph) (d : Draws) {m : Nat} {id : Int}
    (hKey : main[m]? = some id) :
    (∃ s' main' eph', s.evictBlock d id m = .ok s' ∧ Between s' main' eph' m ∧
        (∀ k, s.mainMemorySet.get? k = none → s'.mainMemorySet.get? k = none) ∧
        ∀ k ∈ eph', k ∈ eph ∨ k ∈ main) ∨
      d.put = .invalid ∧ s.evictBlock d id m = .error invalidPut := by
  obtain ⟨hIn, hEq⟩ := List.getElem?_eq_some_iff.mp hKey
  have hMem : id ∈ main := List.mem_of_getElem? hKey
  have hSlot := h.mainPacked.slot_of_key hKey
  have hId : id ≠ -1 := fun hb => h.mainPacked.used (hb ▸ hMem)
  have hGone : id ∉ main.eraseIdx m := by
    have hNodup := h.mainPacked.nodup h.mainTable.inverse.single
    intro hStill
    obtain ⟨j, hj, hne, hEq'⟩ := List.mem_eraseIdx_iff_getElem.mp hStill
    exact hne ((List.Nodup.getElem_inj_iff hNodup).mp (hEq'.trans hEq.symm))
  have hNone : ∀ k, s.mainMemorySet.get? k = none →
      (s.mainMemorySet.erase id).get? k = none := by
    intro k hk
    rw [OrdMap.get?_erase]
    split
    · rfl
    · exact hk
  obtain ⟨p, -, hp, -⟩ := h.mainTable.slot (h.mainTable.lt_max hSlot)
  have hBlock : s.mainBlock p = fillBlock id :=
    Option.some.inj (h.mainTable.contents m _ p hSlot hId hp)
  have hOpening := h.mainPacked.opening_vacated hIn
  unfold Cache.evictBlock
  rcases h.ephSlot d with ⟨-, hRun⟩ | ⟨s₁, eph₁, n, hRun, hTables, hSame, hOpen, hSub, hKeeps⟩
  · -- no ephemeral memory is left: the block is dropped
    refine Or.inl ⟨{ s with
      mainMemorySet := s.mainMemorySet.erase id
      mainMemoryRmap := s.mainMemoryRmap.set m (-1) }, main.eraseIdx m, eph, ?_,
      ⟨⟨h.mainTable.vacate hSlot hId, h.ephTable, h.mainPos, h.mainSmall, h.ephSmall,
        h.blockSelector, h.mainSelector, h.ephSelector⟩, hOpening,
        h.ephPacked, fun k hk => h.disjoint k (List.mem_of_mem_eraseIdx hk)⟩, hNone,
      fun k hk => Or.inl hk⟩
    rw [hRun, Int.toNat_natCast]
    rfl
  · have hSlot₁ : s₁.mainMemoryRmap[m]? = some id := hSame.rmap ▸ hSlot
    have hNew : s₁.ephMemorySet.get? id = none := hKeeps id (h.ephNone (h.disjoint id hMem))
    have hVacated : Tables { s₁ with
        mainMemorySet := s₁.mainMemorySet.erase id
        mainMemoryRmap := s₁.mainMemoryRmap.set m (-1) } :=
      ⟨hTables.mainTable.vacate hSlot₁ hId, hTables.ephTable, hTables.mainPos,
        hTables.mainSmall, hTables.ephSmall, hTables.blockSelector, hTables.mainSelector,
        hTables.ephSelector⟩
    have hIndex : (n : Int) ≠ -1 := by omega
    rw [hRun]
    simp only [bind, Except.bind, if_pos hIndex, Int.toNat_natCast]
    rcases hVacated.moveToEph d (m := m) hOpen hId hNew (hSame.memory ▸ hp)
      (hSame.block ▸ hBlock) with ⟨s', eph', hMove, hTables', hSame', hPacked, hMembers⟩ | hInvalid
    · refine Or.inl ⟨s', main.eraseIdx m, eph', hMove, ⟨hTables', ?_, hPacked, fun k hk hk' => ?_⟩,
        fun k hk => ?_, fun k hk => ?_⟩
      · rw [hSame'.rmap]
        show Opening _ _ (s₁.mainMemoryRmap.set m (-1)) m
        rw [hSame.rmap]
        exact hOpening
      · rcases hMembers k hk' with hOld | rfl
        · exact h.disjoint k (List.mem_of_mem_eraseIdx hk) (hSub k hOld)
        · exact hGone hk
      · rw [hSame'.set]
        show (s₁.mainMemorySet.erase id).get? k = none
        rw [hSame.set]
        exact hNone k hk
      · rcases hMembers k hk with hOld | rfl
        · exact Or.inl (hSub k hOld)
        · exact Or.inr hMem
    · exact Or.inr hInvalid

/-- With main memory full, the block drawn is evicted. -/
theorem evict (h : Holds s main eph) (hFull : main.length = s.maxMainMemoryBlocks) (d : Draws) :
    (∃ s' main' eph' n, s.evict d = .ok (s', (n : Nat)) ∧ Between s' main' eph' n ∧
        (∀ id, s.mainMemorySet.get? id = none → s'.mainMemorySet.get? id = none) ∧
        ∀ id ∈ eph', id ∈ eph ∨ id ∈ main) ∨
      d.put = .invalid ∧ s.evict d = .error invalidPut := by
  have hPos := h.mainPos
  have hSelector := h.mainSelector
  have hNonneg : 0 ≤ s.mainMemoryEvictionSelector := by omega
  obtain ⟨m, hDraw, hm⟩ := uniform_spec hNonneg d.mainVictim
  have hIn : m < main.length := by omega
  have hKey : main[m]? = some main[m] := List.getElem?_eq_getElem hIn
  have hSlot := h.mainPacked.slot_of_key hKey
  have hId : main[m] ≠ -1 := fun hb => h.mainPacked.used (hb ▸ List.getElem_mem hIn)
  unfold Cache.evict
  simp only [hDraw, get_of_getElem? hSlot, bind, Except.bind, if_neg hId]
  rcases h.evictBlock d hKey with ⟨s', main', eph', hRun, hBetween, hKeeps, hMembers⟩ | ⟨hPut, hRun⟩
  · refine Or.inl ⟨s', main', eph', m, ?_, hBetween, hKeeps, hMembers⟩
    rw [hRun]
    rfl
  · refine Or.inr ⟨hPut, ?_⟩
    rw [hRun]

/-- What an access makes of the levels, or how it fails. -/
def Goes (d : Draws) (id : Int) (r : Except Exit (Access × Cache)) : Prop :=
  (∃ a s' main' eph', r = .ok (a, s') ∧ a.Of id ∧ Holds s' main' eph') ∨
    (d.put = .invalid ∧ r = .error invalidPut) ∨
    (d.attempt = .invalid ∧ r = .error invalidAttempt)

/-- A block in neither memory is loaded. -/
theorem miss (h : Holds s main eph) (d : Draws) {id : Int} (hId : id ≠ -1)
    (hMain : s.mainMemorySet.get? id = none) (hEph : id ∉ eph) : Goes d id (s.miss d id) := by
  have hSize := h.mainSize
  have hLength := h.mainLength
  have hSmall := h.mainSmall
  unfold Cache.miss
  by_cases hFull : s.mainMemorySet.size ≥ s.maxMainMemoryBlocks ∧ s.maxMainMemoryBlocks > 0
  · rw [if_pos hFull]
    rcases h.evict (by omega) d with
      ⟨s₁, main₁, eph₁, n, hRun, hBetween, hKeeps, hMembers⟩ | ⟨hPut, hRun⟩
    · have hEph₁ : id ∉ eph₁ := by
        intro hk
        rcases hMembers id hk with hOld | hOld
        · exact hEph hOld
        · obtain ⟨i, hi⟩ := (h.mainPacked.mem_iff h.mainTable.inverse).mp hOld
          rw [hMain] at hi
          cases hi
      obtain ⟨a, s', main', hLoad, hOf, hHolds⟩ := hBetween.load hId (hKeeps id hMain) hEph₁
      refine Or.inl ⟨a, s', main', eph₁, ?_, hOf, hHolds⟩
      rw [hRun]
      exact hLoad
    · refine Or.inr (Or.inl ⟨hPut, ?_⟩)
      rw [hRun]
      rfl
  · have hRoom : main.length < s.mainMemoryRmap.length := by
      have := h.mainPos
      rw [h.mainTable.rmapLength]
      omega
    have hBetween : Between s main eph main.length :=
      ⟨h.toTables, h.mainPacked.opening_next hRoom, h.ephPacked, h.disjoint⟩
    obtain ⟨a, s', main', hLoad, hOf, hHolds⟩ := hBetween.load hId hMain hEph
    rw [if_neg hFull, hSize, toInt_of_lt (by omega)]
    exact Or.inl ⟨a, s', main', eph, hLoad, hOf, hHolds⟩

/-- A block that is not in main memory: a hit in ephemeral memory reads it, and
a revoked slot is gone before the block is loaded. -/
theorem ephAccess (h : Holds s main eph) (d : Draws) {id : Int} (hId : id ≠ -1)
    (hMain : s.mainMemorySet.get? id = none) : Goes d id (s.ephAccess d id) := by
  unfold Cache.ephAccess
  rcases hFind : s.ephMemorySet.get? id with _ | i
  · refine h.miss d hId hMain fun hk => ?_
    obtain ⟨i, hi⟩ := (h.ephPacked.mem_iff h.ephTable.inverse).mp hk
    rw [hFind] at hi
    cases hi
  · obtain ⟨n, rfl, hSlot, -⟩ := h.ephTable.inverse.slot_of_find hFind
    have hn := h.ephTable.lt_max hSlot
    obtain ⟨p, -, hp, -⟩ := h.ephTable.slot hn
    have hContents : s.contents p = .ok (fillBlock id) := by
      rw [Cache.contents, h.ephTable.contents n id p hSlot hId hp]
    simp only [get_of_getElem? hp, hContents, bind, Except.bind]
    cases hAttempt : d.attempt with
    | success => exact Or.inl ⟨_, s, main, eph, rfl, rfl, h⟩
    | invalid => exact Or.inr (Or.inr ⟨hAttempt, rfl⟩)
    | revoked =>
      obtain ⟨s', hRun, hTables, hSame, hRmap, -⟩ := h.handleRevoked hn
      -- the slot was one in use, so those left are the first ones
      have hKey : eph[n]? = some id ∧ n < eph.length := by
        rcases h.ephPacked.getElem? hSlot with ⟨hKey, hLt, -⟩ | ⟨-, hBlank⟩
        · exact ⟨hKey, hLt⟩
        · exact absurd hBlank hId
      have hHolds : Holds s' main (eph.eraseIdx n) := by
        refine ⟨hTables, ?_, ?_, fun k hk hk' => h.disjoint k hk (List.mem_of_mem_eraseIdx hk')⟩
        · rw [hSame.rmap]
          exact h.mainPacked
        · rw [hRmap]
          exact h.ephPacked.eraseIdx hKey.2
      have hGone : id ∉ eph.eraseIdx n := by
        have hNodup := h.ephPacked.nodup h.ephTable.inverse.single
        intro hStill
        obtain ⟨j, hj, hne, hEq⟩ := List.mem_eraseIdx_iff_getElem.mp hStill
        obtain ⟨hLt, hEq'⟩ := List.getElem?_eq_some_iff.mp hKey.1
        exact hne ((List.Nodup.getElem_inj_iff hNodup).mp (hEq.trans hEq'.symm))
      simp only [hRun]
      exact hHolds.miss d hId (hSame.set ▸ hMain) hGone

/-- An iteration keeps the levels, and reads the block it asked for. -/
theorem iteration (h : Holds s main eph) (d : Draws) : Goes d (s.blockId d) (s.iteration d) := by
  have hId : s.blockId d ≠ -1 := by
    obtain ⟨n, hDraw, -⟩ := uniform_spec h.blockSelector d.block
    rw [Cache.blockId, hDraw]
    omega
  unfold Cache.iteration
  rcases hFind : s.mainMemorySet.get? (s.blockId d) with _ | i
  · exact h.ephAccess d hId hFind
  · obtain ⟨n, rfl, hSlot, -⟩ := h.mainTable.inverse.slot_of_find hFind
    obtain ⟨p, -, hp, -⟩ := h.mainTable.slot (h.mainTable.lt_max hSlot)
    have hBlock := Option.some.inj (h.mainTable.contents n _ p hSlot hId hp)
    refine Or.inl ⟨.mainHit (computeBlockSum (s.mainBlock p)), s, main, eph, ?_, ?_, h⟩
    · simp only [get_of_getElem? hp, bind, Except.bind]
      rfl
    · exact congrArg computeBlockSum hBlock

/-- The levels are kept by every run; it ends only when `libephmem` says that
its arguments are invalid. -/
theorem run (h : Holds s main eph) (ds : List Draws) :
    (∃ s' main' eph', s.run ds = .ok s' ∧ Holds s' main' eph') ∨
      (s.run ds = .error invalidPut ∧ ∃ d ∈ ds, d.put = .invalid) ∨
      (s.run ds = .error invalidAttempt ∧ ∃ d ∈ ds, d.attempt = .invalid) := by
  induction ds generalizing s main eph with
  | nil => exact Or.inl ⟨s, main, eph, rfl, h⟩
  | cons d rest ih =>
    rw [Cache.run]
    rcases h.iteration d with ⟨a, s', main', eph', hRun, -, hHolds⟩ | ⟨hPut, hRun⟩ | ⟨hAttempt, hRun⟩
    · rw [hRun]
      simp only
      rcases ih hHolds with hOk | ⟨hErr, d', hd', hPut⟩ | ⟨hErr, d', hd', hAttempt⟩
      · exact Or.inl hOk
      · exact Or.inr (Or.inl ⟨hErr, d', List.mem_cons_of_mem _ hd', hPut⟩)
      · exact Or.inr (Or.inr ⟨hErr, d', List.mem_cons_of_mem _ hd', hAttempt⟩)
    · rw [hRun]
      exact Or.inr (Or.inl ⟨rfl, d, List.mem_cons_self .., hPut⟩)
    · rw [hRun]
      exact Or.inr (Or.inr ⟨rfl, d, List.mem_cons_self .., hAttempt⟩)

end Holds

-- ---------------------------------------------------------------------------
-- The invariant
-- ---------------------------------------------------------------------------

/-- What holds at the start of every iteration. -/
structure CacheInv (s : Cache) : Prop where
  mainInverse : Inverse (-1) s.mainMemorySet.get? s.mainMemoryRmap
  ephInverse : Inverse (-1) s.ephMemorySet.get? s.ephMemoryRmap
  /-- the slots in use are the first ones -/
  mainFirst : ∀ (n : Nat) id, s.mainMemoryRmap[n]? = some id →
    (id ≠ -1 ↔ n < s.mainMemorySet.size)
  ephFirst : ∀ (n : Nat) id, s.ephMemoryRmap[n]? = some id →
    (id ≠ -1 ↔ n < s.ephMemorySet.size)
  mainLengths : s.mainMemory.length = s.maxMainMemoryBlocks ∧
    s.mainMemoryRmap.length = s.maxMainMemoryBlocks
  ephLengths : s.ephMemory.length = s.maxEphMemoryBlocks ∧
    s.ephMemoryRmap.length = s.maxEphMemoryBlocks
  disjoint : ∀ id i, s.mainMemorySet.get? id = some i → s.ephMemorySet.get? id = none
  /-- a slot holds the block it is said to hold -/
  mainContents : ∀ id i, s.mainMemorySet.get? id = some i →
    ∃ p, at? s.mainMemory i = some p ∧ s.mainBlock p = fillBlock id
  ephContents : ∀ id i, s.ephMemorySet.get? id = some i →
    ∃ p, at? s.ephMemory i = some p ∧ s.ephBlock p = some (fillBlock id)

/-- The slots in use are the first ones. -/
theorem first_iff {m : OrdMap Int Int} {ids rmap : List Int} (hPacked : Packed (-1) ids rmap)
    (hInverse : Inverse (-1) m.get? rmap) {n : Nat} {id : Int} (hSlot : rmap[n]? = some id) :
    id ≠ -1 ↔ n < m.size := by
  rw [OrdMap.size_eq_length hPacked hInverse]
  rcases hPacked.getElem? hSlot with ⟨-, hLt, hne⟩ | ⟨hGe, heq⟩
  · exact ⟨fun _ => hLt, fun _ => hne⟩
  · exact ⟨fun hne => absurd heq hne, fun hLt => absurd hLt (Nat.not_lt.mpr hGe)⟩

/-- A block that is found has its contents. -/
theorem Table.contents_of_find {set : OrdMap Int Int} {rmap : List Int} {slots : List Nat}
    {data : Nat → Option Block} {max : Nat} (h : Table set rmap slots data max) {id i : Int}
    (hFind : set.get? id = some i) : ∃ p, at? slots i = some p ∧ data p = some (fillBlock id) := by
  obtain ⟨n, rfl, hSlot, hId⟩ := h.inverse.slot_of_find hFind
  obtain ⟨p, -, hp, -⟩ := h.slot (h.lt_max hSlot)
  exact ⟨p, (at?_natCast ..).trans hp, h.contents n id p hSlot hId hp⟩

/-- What holds of the two levels is the invariant of the cache. -/
theorem Holds.cacheInv {s : Cache} {main eph : List Int} (h : Holds s main eph) : CacheInv s where
  mainInverse := h.mainTable.inverse
  ephInverse := h.ephTable.inverse
  mainFirst _ _ hSlot := first_iff h.mainPacked h.mainTable.inverse hSlot
  ephFirst _ _ hSlot := first_iff h.ephPacked h.ephTable.inverse hSlot
  mainLengths := ⟨h.mainTable.slotsLength, h.mainTable.rmapLength⟩
  ephLengths := ⟨h.ephTable.slotsLength, h.ephTable.rmapLength⟩
  disjoint id i hFind :=
    h.ephNone (h.disjoint id ((h.mainPacked.mem_iff h.mainTable.inverse).mpr ⟨i, hFind⟩))
  mainContents id i hFind := by
    obtain ⟨p, hp, hData⟩ := h.mainTable.contents_of_find hFind
    exact ⟨p, hp, Option.some.inj hData⟩
  ephContents _ _ hFind := h.ephTable.contents_of_find hFind

-- ---------------------------------------------------------------------------
-- From the start
-- ---------------------------------------------------------------------------

theorem Table.init {data : Nat → Option Block} {max : Nat}
    (hLive : ∀ p, p < max → ∃ block, data p = some block) :
    Table .empty (List.replicate max (-1)) (List.range max) data max where
  inverse := Inverse.init (-1) max
  rmapLength := List.length_replicate
  slotsLength := List.length_range
  distinct := List.nodup_range
  live p hp := hLive p (List.mem_range.mp hp)
  contents _ _ _ hn hId _ :=
    absurd (List.eq_of_mem_replicate (List.mem_of_getElem? hn)) hId

/-- No more is reserved than the configuration has. -/
theorem Config.reserved_le (c : Config) (size : Nat) :
    c.reserved size ≤ c.maxEphMemoryBlocks := by
  unfold Config.reserved
  split <;> omega

/-- The levels are empty at first. -/
theorem Config.initial_holds {c : Config} {maxEph : Nat} (hTotal : c.totalBlocks < 2 ^ 31)
    (hPos : 0 < c.maxMainMemoryBlocks) (hMain : c.maxMainMemoryBlocks < 2 ^ 31)
    (hEph : maxEph < 2 ^ 31) : Holds (c.initial maxEph) [] [] := by
  have hBlocks : (c.initial maxEph).blockSelector = (c.totalBlocks - 1 : Nat) := by
    unfold Config.initial
    dsimp only
    rw [toInt_of_lt (by omega)]
  have hSelector : (c.initial maxEph).mainMemoryEvictionSelector =
      (c.maxMainMemoryBlocks - 1 : Nat) := by
    unfold Config.initial
    dsimp only
    rw [toInt_of_lt (by omega)]
  refine ⟨⟨Table.init fun p _ => ⟨_, rfl⟩, Table.init fun p hp => ⟨_, if_pos hp⟩, hPos, hMain, hEph,
    ?_, ?_, rfl⟩, Packed.init (-1) _, Packed.init (-1) _,
    fun _ h => absurd h List.not_mem_nil⟩
  · rw [hBlocks]
    exact Int.natCast_nonneg _
  · rw [hSelector]
    exact Int.natCast_sub hPos

/-- The constructor makes a cache that holds nothing. -/
theorem Config.start_holds {c : Config} {size : Nat} {s : Cache} (hTotal : c.totalBlocks < 2 ^ 31)
    (hMain : c.maxMainMemoryBlocks < 2 ^ 31) (hEph : c.maxEphMemoryBlocks < 2 ^ 31)
    (hStart : c.start size = .ok s) : Holds s [] [] := by
  unfold Config.start Config.check at hStart
  by_cases hZero : c.totalBlocks = 0 ∨ c.maxMainMemoryBlocks = 0
  · rw [if_pos hZero] at hStart
    cases hStart
  by_cases hFits : c.totalBlocks < add64 c.maxMainMemoryBlocks c.maxEphMemoryBlocks
  · rw [if_neg hZero, if_pos hFits] at hStart
    cases hStart
  rw [if_neg hZero, if_neg hFits] at hStart
  cases hStart
  exact Config.initial_holds hTotal (Nat.pos_of_ne_zero fun h => hZero (Or.inr h)) hMain
    (Nat.lt_of_le_of_lt (c.reserved_le size) hEph)

/-- **The two-level cache keeps its books.** For every configuration the checks
admit, whatever `libephmem_reserve` returns and whatever is drawn, hit, evicted
and revoked: at the start of each iteration `CacheInv` holds, an iteration
reads the block it asked for, and the program ends with no error but the two
that say `libephmem` was called with invalid arguments. -/
theorem poc_cache_invariant {c : Config} {size : Nat} {s₀ : Cache}
    (hTotal : c.totalBlocks < 2 ^ 31) (hMain : c.maxMainMemoryBlocks < 2 ^ 31)
    (hEph : c.maxEphMemoryBlocks < 2 ^ 31) (hStart : c.start size = .ok s₀) (ds : List Draws) :
    (∀ s, s₀.run ds = .ok s → CacheInv s ∧
      ∀ d a s', s.iteration d = .ok (a, s') → a.Of (s.blockId d)) ∧
    ∀ e, s₀.run ds = .error e →
      (e = invalidPut ∧ ∃ d ∈ ds, d.put = .invalid) ∨
        (e = invalidAttempt ∧ ∃ d ∈ ds, d.attempt = .invalid) := by
  have hHolds := Config.start_holds hTotal hMain hEph hStart
  rcases hHolds.run ds with ⟨s', main, eph, hRun, hInv⟩ | ⟨hRun, hPut⟩ | ⟨hRun, hAttempt⟩
  · refine ⟨fun s hs => ?_, fun e he => ?_⟩
    · cases hRun.symm.trans hs
      refine ⟨hInv.cacheInv, fun d a s₂ hStep => ?_⟩
      rcases hInv.iteration d with ⟨a', s₃, -, -, hOk, hOf, -⟩ | ⟨-, hErr⟩ | ⟨-, hErr⟩
      · cases hOk.symm.trans hStep
        exact hOf
      · cases hErr.symm.trans hStep
      · cases hErr.symm.trans hStep
    · cases hRun.symm.trans he
  · refine ⟨fun s hs => ?_, fun e he => ?_⟩
    · cases hRun.symm.trans hs
    · cases hRun.symm.trans he
      exact Or.inl ⟨rfl, hPut⟩
  · refine ⟨fun s hs => ?_, fun e he => ?_⟩
    · cases hRun.symm.trans hs
    · cases hRun.symm.trans he
      exact Or.inr ⟨rfl, hAttempt⟩

/-- One block in main memory and two in ephemeral memory: three misses, the
last of which loses its eviction slot, and a hit on a slot that is revoked. -/
def demoDraws : List Draws :=
  [⟨0, 0, 0, .success, .success⟩, ⟨1, 0, 0, .success, .success⟩, ⟨2, 0, 0, .success, .revoked⟩,
    ⟨0, 0, 0, .revoked, .success⟩]

theorem poc_cache_invariant_demo :
    ∃ s, ((⟨4, 1, 2⟩ : Config).initial 2).run demoDraws = .ok s ∧ CacheInv s := by
  have hStart : (⟨4, 1, 2⟩ : Config).start (4 * 1024 * 1024) =
      .ok ((⟨4, 1, 2⟩ : Config).initial 2) := rfl
  obtain ⟨hOk, hErr⟩ := poc_cache_invariant (by decide) (by decide) (by decide) hStart demoDraws
  rcases hRun : ((⟨4, 1, 2⟩ : Config).initial 2).run demoDraws with e | s
  · rcases hErr e hRun with ⟨-, d, hd, hPut⟩ | ⟨-, d, hd, hAttempt⟩
    · have hNone : ∀ d ∈ demoDraws, d.put ≠ .invalid := by decide
      exact absurd hPut (hNone d hd)
    · have hNone : ∀ d ∈ demoDraws, d.attempt ≠ .invalid := by decide
      exact absurd hAttempt (hNone d hd)
  · exact ⟨s, rfl, (hOk s hRun).1⟩

end EphMemory.Poc
