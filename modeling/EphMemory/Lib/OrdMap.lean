import Mathlib

/-!
# Ordered maps

Finite maps kept as association lists in strictly increasing key order, so
that iterating over the entries is iterating in key order. The ordering is a
field of the structure: a map that is out of order cannot be built.

* `get?_insert` / `get?_filterKeys` / `get?_erase` — lookups after an update;
* `mem_entries_iff` — an entry is listed exactly when a lookup finds it;
* `ext_get?` — maps with the same lookups are the same;
* `size_insert_of_none` / `size_erase_of_some` — how the updates count;
* `get?_insertAll` / `size_insertAll` — the same for a whole list of entries.
-/

namespace EphMemory.Lib

variable {κ α : Type} [LinearOrder κ]

/-- A finite map with its entries in strictly increasing key order. -/
structure OrdMap (κ α : Type) [LinearOrder κ] where
  entries : List (κ × α)
  sorted : entries.Pairwise fun a b => a.1 < b.1

namespace OrdMap

-- ---------------------------------------------------------------------------
-- Operations
-- ---------------------------------------------------------------------------

def empty : OrdMap κ α := ⟨[], List.Pairwise.nil⟩

def get? (m : OrdMap κ α) (k : κ) : Option α :=
  (m.entries.find? fun e => decide (e.1 = k)).map Prod.snd

def contains (m : OrdMap κ α) (k : κ) : Bool := (m.get? k).isSome

def keys (m : OrdMap κ α) : List κ := m.entries.map Prod.fst

def values (m : OrdMap κ α) : List α := m.entries.map Prod.snd

def size (m : OrdMap κ α) : Nat := m.entries.length

/-- Insertion into a sorted list of entries, replacing the value of a key that
is already there. -/
def insertEntry (k : κ) (a : α) : List (κ × α) → List (κ × α)
  | [] => [(k, a)]
  | e :: rest =>
    if k < e.1 then (k, a) :: e :: rest
    else if e.1 < k then e :: insertEntry k a rest
    else (k, a) :: rest

/-- Inserting brings no key but its own. -/
theorem fst_of_mem_insertEntry {k : κ} {a : α} {l : List (κ × α)} {e : κ × α}
    (h : e ∈ insertEntry k a l) : e.1 = k ∨ e ∈ l := by
  induction l with
  | nil =>
    simp only [insertEntry, List.mem_singleton] at h
    exact Or.inl (by rw [h])
  | cons x rest ih =>
    rw [insertEntry] at h
    split at h
    · rcases List.mem_cons.mp h with rfl | h
      · exact Or.inl rfl
      · exact Or.inr h
    · split at h
      · rcases List.mem_cons.mp h with rfl | h
        · exact Or.inr (List.mem_cons_self ..)
        · exact (ih h).imp id (List.mem_cons_of_mem _)
      · rcases List.mem_cons.mp h with rfl | h
        · exact Or.inl rfl
        · exact Or.inr (List.mem_cons_of_mem _ h)

/-- Inserting keeps the entries in order. -/
theorem insertEntry_sorted (k : κ) (a : α) {l : List (κ × α)}
    (h : l.Pairwise fun a b => a.1 < b.1) :
    (insertEntry k a l).Pairwise fun a b => a.1 < b.1 := by
  induction l with
  | nil => exact List.pairwise_singleton _ _
  | cons x rest ih =>
    obtain ⟨hx, hrest⟩ := List.pairwise_cons.mp h
    rw [insertEntry]
    split
    · rename_i hlt
      refine List.pairwise_cons.mpr ⟨fun e he => ?_, h⟩
      rcases List.mem_cons.mp he with rfl | he
      · exact hlt
      · exact lt_trans hlt (hx e he)
    · split
      · rename_i hlt
        refine List.pairwise_cons.mpr ⟨fun e he => ?_, ih hrest⟩
        rcases fst_of_mem_insertEntry he with heq | he
        · rw [heq]; exact hlt
        · exact hx e he
      · rename_i h1 h2
        have hk : x.1 = k := le_antisymm (not_lt.mp h1) (not_lt.mp h2)
        exact List.pairwise_cons.mpr ⟨fun e he => hk ▸ hx e he, hrest⟩

def insert (m : OrdMap κ α) (k : κ) (a : α) : OrdMap κ α :=
  ⟨insertEntry k a m.entries, insertEntry_sorted k a m.sorted⟩

/-- The entries whose key passes `p`. -/
def filterKeys (m : OrdMap κ α) (p : κ → Bool) : OrdMap κ α :=
  ⟨m.entries.filter fun e => p e.1, m.sorted.filter _⟩

def erase (m : OrdMap κ α) (k : κ) : OrdMap κ α := m.filterKeys fun k' => decide (k' ≠ k)

/-- Remove every key of a list, one after the other. -/
def eraseAll (m : OrdMap κ α) (ks : List κ) : OrdMap κ α :=
  m.filterKeys fun k => decide (k ∉ ks)

/-- Insert a list of entries, one after the other. -/
def insertAll (m : OrdMap κ α) : List (κ × α) → OrdMap κ α
  | [] => m
  | e :: rest => (m.insert e.1 e.2).insertAll rest

-- ---------------------------------------------------------------------------
-- Lookup
-- ---------------------------------------------------------------------------

/-- The entries are what can be looked up. -/
theorem mem_entries_iff {m : OrdMap κ α} {k : κ} {a : α} :
    (k, a) ∈ m.entries ↔ m.get? k = some a := by
  unfold get?
  obtain ⟨l, hl⟩ := m
  simp only
  induction l with
  | nil => simp
  | cons e rest ih =>
    obtain ⟨he, hrest⟩ := List.pairwise_cons.mp hl
    by_cases hk : e.1 = k
    · rw [List.find?_cons_of_pos (by simp [hk]), List.mem_cons]
      simp only [Option.map_some, Option.some.injEq]
      constructor
      · rintro (rfl | hmem)
        · rfl
        · exact absurd (he _ hmem) (by simp [hk])
      · rintro rfl
        exact Or.inl (by rw [← hk])
    · rw [List.find?_cons_of_neg (by simp [hk]), ← ih hrest, List.mem_cons]
      refine ⟨fun h => h.resolve_left fun heq => hk (by rw [← heq]), Or.inr⟩

theorem get?_eq_none_iff {m : OrdMap κ α} {k : κ} :
    m.get? k = none ↔ k ∉ m.keys := by
  rw [keys, List.mem_map]
  constructor
  · rintro h ⟨⟨k', a⟩, hmem, rfl⟩
    rw [mem_entries_iff.mp hmem] at h
    cases h
  · intro h
    cases hg : m.get? k with
    | none => rfl
    | some a => exact absurd ⟨(k, a), mem_entries_iff.mpr hg, rfl⟩ h

theorem mem_keys_iff {m : OrdMap κ α} {k : κ} : k ∈ m.keys ↔ ∃ a, m.get? k = some a := by
  rw [← Option.isSome_iff_exists, ← Option.ne_none_iff_isSome, ne_eq, get?_eq_none_iff, not_not]

theorem mem_values_iff {m : OrdMap κ α} {a : α} : a ∈ m.values ↔ ∃ k, m.get? k = some a := by
  rw [values, List.mem_map]
  constructor
  · rintro ⟨⟨k, b⟩, hmem, rfl⟩
    exact ⟨k, mem_entries_iff.mp hmem⟩
  · rintro ⟨k, hk⟩
    exact ⟨(k, a), mem_entries_iff.mpr hk, rfl⟩

@[simp] theorem get?_empty (k : κ) : (empty : OrdMap κ α).get? k = none := rfl

theorem contains_iff {m : OrdMap κ α} {k : κ} : m.contains k = true ↔ ∃ a, m.get? k = some a :=
  Option.isSome_iff_exists

/-- A lookup after inserting finds what was inserted at its key, and elsewhere
what it found before. -/
theorem find?_insertEntry (k k' : κ) (a : α) (l : List (κ × α)) :
    ((insertEntry k a l).find? fun e => decide (e.1 = k')).map Prod.snd =
      if k' = k then some a else (l.find? fun e => decide (e.1 = k')).map Prod.snd := by
  induction l with
  | nil => by_cases h : k' = k <;> simp [insertEntry, h, eq_comm]
  | cons x rest ih =>
    rw [insertEntry]
    split
    · by_cases h : k' = k
      · simp [h]
      · simp [List.find?_cons, h, Ne.symm h]
    · split
      · rename_i hlt
        by_cases hx : x.1 = k'
        · have : k' ≠ k := fun heq => absurd hlt (by rw [hx, heq]; exact lt_irrefl _)
          simp [hx, this]
        · rw [List.find?_cons_of_neg (by simp [hx]), ih, List.find?_cons_of_neg (by simp [hx])]
      · rename_i h1 h2
        have hk : x.1 = k := le_antisymm (not_lt.mp h1) (not_lt.mp h2)
        by_cases h : k' = k
        · simp [h]
        · simp [h, Ne.symm h, hk]

/-- Inserting replaces what is at its key. -/
@[simp] theorem get?_insert (m : OrdMap κ α) (k k' : κ) (a : α) :
    (m.insert k a).get? k' = if k' = k then some a else m.get? k' :=
  find?_insertEntry k k' a m.entries

@[simp] theorem get?_filterKeys (m : OrdMap κ α) (p : κ → Bool) (k : κ) :
    (m.filterKeys p).get? k = if p k then m.get? k else none := by
  cases hp : p k with
  | false =>
    rw [if_neg (by simp), get?_eq_none_iff, keys, List.mem_map]
    rintro ⟨e, he, rfl⟩
    have := (List.mem_filter.mp he).2
    simp [hp] at this
  | true =>
    rw [if_pos rfl]
    cases hg : m.get? k with
    | none =>
      rw [get?_eq_none_iff] at hg ⊢
      intro hmem
      obtain ⟨e, he, rfl⟩ := List.mem_map.mp hmem
      exact hg (List.mem_map.mpr ⟨e, (List.mem_filter.mp he).1, rfl⟩)
    | some a =>
      rw [← mem_entries_iff] at hg ⊢
      exact List.mem_filter.mpr ⟨hg, hp⟩

/-- Erasing hides one key. -/
@[simp] theorem get?_erase (m : OrdMap κ α) (k k' : κ) :
    (m.erase k).get? k' = if k' = k then none else m.get? k' := by
  rw [erase, get?_filterKeys]
  by_cases h : k' = k <;> simp [h]

@[simp] theorem get?_eraseAll (m : OrdMap κ α) (ks : List κ) (k : κ) :
    (m.eraseAll ks).get? k = if k ∈ ks then none else m.get? k := by
  rw [eraseAll, get?_filterKeys]
  by_cases h : k ∈ ks <;> simp [h]

/-- Inserting a list of entries with distinct keys: a listed key reads its
own value, every other key reads as before. -/
theorem get?_insertAll {m : OrdMap κ α} {l : List (κ × α)} (hNodup : (l.map Prod.fst).Nodup)
    (k : κ) : (m.insertAll l).get? k = (l.lookup k).or (m.get? k) := by
  induction l generalizing m with
  | nil => rfl
  | cons e rest ih =>
    obtain ⟨k', a'⟩ := e
    rw [List.map_cons, List.nodup_cons] at hNodup
    rw [insertAll, ih hNodup.2, get?_insert, List.lookup_cons]
    by_cases h : k = k'
    · subst h
      have hnone : rest.lookup k = none := by
        rw [List.lookup_eq_none_iff]
        intro p hp
        rw [bne_iff_ne]
        intro heq
        exact hNodup.1 (List.mem_map.mpr ⟨p, hp, heq.symm⟩)
      simp [hnone]
    · have hbeq : (k == k') = false := by simpa using h
      simp [hbeq, h]

/-- The same as a statement about entries. -/
theorem get?_insertAll_eq_some {m : OrdMap κ α} {l : List (κ × α)}
    (hNodup : (l.map Prod.fst).Nodup) {k : κ} {a : α} :
    (m.insertAll l).get? k = some a ↔
      (k, a) ∈ l ∨ k ∉ l.map Prod.fst ∧ m.get? k = some a := by
  induction l generalizing m with
  | nil => simp [insertAll]
  | cons e rest ih =>
    obtain ⟨k', a'⟩ := e
    rw [List.map_cons, List.nodup_cons] at hNodup
    obtain ⟨hHead, hRest⟩ := hNodup
    rw [insertAll, ih hRest, get?_insert]
    by_cases h : k = k'
    · subst h
      have hNone : (k, a) ∉ rest := fun hMem => hHead (List.mem_map.mpr ⟨_, hMem, rfl⟩)
      have hKey : k ∉ rest.map Prod.fst := hHead
      simp only [hNone, hKey, if_true, Option.some.injEq, List.mem_cons, Prod.mk.injEq,
        true_and, false_or, or_false, not_false_eq_true, List.map_cons, not_true_eq_false,
        false_and]
      exact eq_comm
    · simp [h]

-- ---------------------------------------------------------------------------
-- Counting
-- ---------------------------------------------------------------------------

theorem length_insertEntry (k : κ) (a : α) (l : List (κ × α)) (h : k ∉ l.map Prod.fst) :
    (insertEntry k a l).length = l.length + 1 := by
  induction l with
  | nil => rfl
  | cons x rest ih =>
    rw [List.map_cons, List.mem_cons, not_or] at h
    rw [insertEntry]
    split
    · rfl
    · split
      · rw [List.length_cons, ih h.2, List.length_cons]
      · rename_i h1 h2
        exact absurd (le_antisymm (not_lt.mp h2) (not_lt.mp h1)) h.1

theorem length_insertEntry_le (k : κ) (a : α) (l : List (κ × α)) :
    (insertEntry k a l).length ≤ l.length + 1 := by
  induction l with
  | nil => exact Nat.le_refl _
  | cons x rest ih =>
    rw [insertEntry]
    split
    · exact Nat.le_refl _
    · split
      · exact Nat.succ_le_succ ih
      · exact Nat.le_succ _

theorem size_insert_of_none {m : OrdMap κ α} {k : κ} (a : α) (h : m.get? k = none) :
    (m.insert k a).size = m.size + 1 :=
  length_insertEntry k a m.entries (get?_eq_none_iff.mp h)

theorem size_insert_le (m : OrdMap κ α) (k : κ) (a : α) : (m.insert k a).size ≤ m.size + 1 :=
  length_insertEntry_le k a m.entries

theorem size_filterKeys_le (m : OrdMap κ α) (p : κ → Bool) : (m.filterKeys p).size ≤ m.size :=
  List.length_filter_le _ _

theorem size_insertAll_le (m : OrdMap κ α) (l : List (κ × α)) :
    (m.insertAll l).size ≤ m.size + l.length := by
  induction l generalizing m with
  | nil => exact Nat.le_refl _
  | cons e rest ih =>
    have h1 := ih (m.insert e.1 e.2)
    have h2 := m.size_insert_le e.1 e.2
    rw [insertAll, List.length_cons]
    omega

/-- Inserting entries with distinct keys, none of them present, grows the map
by exactly their number. -/
theorem size_insertAll {m : OrdMap κ α} {l : List (κ × α)} (hNodup : (l.map Prod.fst).Nodup)
    (hNew : ∀ e ∈ l, m.get? e.1 = none) : (m.insertAll l).size = m.size + l.length := by
  induction l generalizing m with
  | nil => rfl
  | cons e rest ih =>
    rw [List.map_cons, List.nodup_cons] at hNodup
    have hRest : ∀ e' ∈ rest, (m.insert e.1 e.2).get? e'.1 = none := by
      intro e' he'
      have hne : e'.1 ≠ e.1 := fun heq => hNodup.1 (heq ▸ List.mem_map.mpr ⟨e', he', rfl⟩)
      rw [get?_insert, if_neg hne]
      exact hNew e' (List.mem_cons_of_mem _ he')
    rw [insertAll, ih hNodup.2 hRest, size_insert_of_none _ (hNew e (List.mem_cons_self ..)),
      List.length_cons]
    omega

/-- What is past one of the entries of a sorted list is what follows it. -/
theorem filter_past {l l₁ l₂ : List (κ × α)} {e : κ × α}
    (hSorted : l.Pairwise fun a b => a.1 < b.1) (hSplit : l = l₁ ++ e :: l₂) :
    l.filter (fun a => decide (e.1 < a.1)) = l₂ := by
  subst hSplit
  obtain ⟨-, hTail, hBefore⟩ := List.pairwise_append.mp hSorted
  have hAfter := (List.pairwise_cons.mp hTail).1
  have hNone : l₁.filter (fun a => decide (e.1 < a.1)) = [] := by
    rw [List.filter_eq_nil_iff]
    intro a ha
    rw [decide_eq_true_iff]
    exact not_lt_of_gt (hBefore a ha e (List.mem_cons_self ..))
  have hAll : l₂.filter (fun a => decide (e.1 < a.1)) = l₂ := by
    rw [List.filter_eq_self]
    intro a ha
    exact decide_eq_true (hAfter a ha)
  rw [List.filter_append, hNone, List.nil_append, List.filter_cons_of_neg, hAll]
  rw [decide_eq_true_iff]
  exact lt_irrefl e.1

theorem keys_nodup (m : OrdMap κ α) : m.keys.Nodup := by
  rw [keys, List.Nodup, List.pairwise_map]
  exact m.sorted.imp fun h => ne_of_lt h

/-- A map is its lookups. -/
theorem ext_get? {m m' : OrdMap κ α} (h : ∀ k, m.get? k = m'.get? k) : m = m' := by
  have hNodup : ∀ m : OrdMap κ α, m.entries.Nodup := fun m =>
    m.sorted.imp fun hlt heq => absurd (congrArg Prod.fst heq) (ne_of_lt hlt)
  have hPerm : m.entries.Perm m'.entries := by
    rw [List.perm_ext_iff_of_nodup (hNodup m) (hNodup m')]
    rintro ⟨k, a⟩
    rw [mem_entries_iff, mem_entries_iff, h]
  have hEq : m.entries = m'.entries :=
    hPerm.eq_of_pairwise (fun _ _ _ _ hab hba => absurd hba (lt_asymm hab)) m.sorted m'.sorted
  cases m
  cases m'
  cases hEq
  rfl

/-- Erasing a list of distinct keys, all of them present, shrinks the map by
exactly their number. -/
theorem size_eraseAll {m : OrdMap κ α} {ks : List κ} (hNodup : ks.Nodup)
    (hMem : ∀ k ∈ ks, ∃ a, m.get? k = some a) : (m.eraseAll ks).size + ks.length = m.size := by
  have hKeys : (m.eraseAll ks).keys = m.keys.filter fun k => decide (k ∉ ks) := by
    simp only [keys, eraseAll, filterKeys, List.filter_map]
    rfl
  have hPerm : (m.keys.filter fun k => decide (k ∈ ks)).Perm ks := by
    rw [List.perm_ext_iff_of_nodup (m.keys_nodup.filter _) hNodup]
    intro k
    simp only [List.mem_filter, decide_eq_true_eq, mem_keys_iff, and_iff_right_iff_imp]
    exact hMem k
  have hSplit := (List.filter_append_perm (fun k => decide (k ∈ ks)) m.keys).length_eq
  have hNot : (m.keys.filter fun k => !decide (k ∈ ks)) = (m.eraseAll ks).keys := by
    rw [hKeys]
    congr 1
    funext k
    simp
  rw [List.length_append, hNot, hPerm.length_eq] at hSplit
  have h1 : (m.eraseAll ks).keys.length = (m.eraseAll ks).size := List.length_map ..
  have h2 : m.keys.length = m.size := List.length_map ..
  omega

/-- Erasing what is there makes the map smaller by one. -/
theorem size_erase_of_some {m : OrdMap κ α} {k : κ} {a : α} (h : m.get? k = some a) :
    (m.erase k).size + 1 = m.size := by
  have hErase : m.erase k = m.eraseAll [k] := by
    unfold erase eraseAll
    congr 1
    funext k'
    simp
  have hAll : ∀ k' ∈ [k], ∃ a, m.get? k' = some a := by
    intro k' hk'
    rw [List.mem_singleton.mp hk']
    exact ⟨a, h⟩
  rw [hErase]
  exact size_eraseAll (List.nodup_singleton k) hAll

end OrdMap

end EphMemory.Lib
