import EphMemory.Orchestrator.Releasing
import EphMemory.Orchestrator.Rounds

/-!
# Orchestrator — what `return_eph_memory_from_consumer` leaves behind

One call that runs while nothing else does, from any state in which no other
allocation lies at the offset of a listed one and every listed allocation that
a donor has committed is in that donor's books.

* `Groups` — sorting a list by a key;
* `GiveBackInv` — the calls to the donors, along every run;
* `ReturnInv` — the whole call, along every run, `ReturnInv.step`;
* `ReturnCall.left` — bounds the steps it has to go, `ReturnInv.moves` none of
  which it waits for.
-/

namespace EphMemory.Orchestrator

open EphMemory.Lib

-- ---------------------------------------------------------------------------
-- Sorting by a key
-- ---------------------------------------------------------------------------

section Groups

variable {κ : Type} [DecidableEq κ] {key : AllocId → Option κ} {l : List AllocId}
  {groups : List (κ × List AllocId)} {x : AllocId} {k : κ}

/-- The elements of the list under each key that occurs, in their order. -/
structure Groups (key : AllocId → Option κ) (l : List AllocId)
    (groups : List (κ × List AllocId)) : Prop where
  keys : (groups.map Prod.fst).Nodup
  values : ∀ g ∈ groups, g.2 = l.filter (fun x => key x = some g.1) ∧ g.2 ≠ []
  all : ∀ x ∈ l, ∀ k, key x = some k → k ∈ groups.map Prod.fst

theorem Groups.nil : Groups key [] ([] : List (κ × List AllocId)) :=
  ⟨List.nodup_nil, nofun, nofun⟩

/-- An allocation without a key goes into no group. -/
theorem Groups.skip (h : Groups key l groups) (hx : key x = none) :
    Groups key (l ++ [x]) groups where
  keys := h.keys
  values g hg := by
    obtain ⟨hEq, hne⟩ := h.values g hg
    refine ⟨?_, hne⟩
    rw [List.filter_append, List.filter_cons_of_neg (by simp [hx]), List.filter_nil,
      List.append_nil]
    exact hEq
  all y hy k hk := by
    rcases List.mem_append.mp hy with hy | hy
    · exact h.all y hy k hk
    · cases List.mem_singleton.mp hy
      rw [hx] at hk
      cases hk

/-- A group is made for a key that is new. -/
theorem pushGroup_keys (k : κ) (x : AllocId) (groups : List (κ × List AllocId)) :
    (pushGroup k x groups).map Prod.fst =
      if k ∈ groups.map Prod.fst then groups.map Prod.fst else groups.map Prod.fst ++ [k] := by
  induction groups with
  | nil => rfl
  | cons g rest ih =>
    obtain ⟨k', xs⟩ := g
    rw [pushGroup]
    by_cases hk : k' = k
    · subst hk
      simp
    · have hk' : ¬ k = k' := fun heq => hk heq.symm
      rw [if_neg hk, List.map_cons, ih]
      simp only [List.map_cons, List.mem_cons, hk', false_or]
      split <;> rfl

/-- The group of the key grows by the allocation, and the others stay. -/
theorem mem_pushGroup (hKeys : (groups.map Prod.fst).Nodup) {g : κ × List AllocId}
    (hg : g ∈ pushGroup k x groups) :
    (g.1 ≠ k ∧ g ∈ groups) ∨ (g.1 = k ∧ ∃ ys, g.2 = ys ++ [x] ∧
      ((k, ys) ∈ groups ∨ (ys = [] ∧ k ∉ groups.map Prod.fst))) := by
  induction groups with
  | nil =>
    cases List.mem_singleton.mp hg
    exact Or.inr ⟨rfl, [], rfl, Or.inr ⟨rfl, List.not_mem_nil⟩⟩
  | cons g' rest ih =>
    obtain ⟨k', xs⟩ := g'
    rw [List.map_cons, List.nodup_cons] at hKeys
    rw [pushGroup] at hg
    by_cases hk : k' = k
    · subst hk
      rw [if_pos rfl] at hg
      rcases List.mem_cons.mp hg with rfl | hg
      · exact Or.inr ⟨rfl, xs, rfl, Or.inl (List.mem_cons_self ..)⟩
      · refine Or.inl ⟨fun heq => ?_, List.mem_cons_of_mem _ hg⟩
        have hMem : g.1 ∈ rest.map Prod.fst := List.mem_map_of_mem hg
        rw [heq] at hMem
        exact hKeys.1 hMem
    · rw [if_neg hk] at hg
      rcases List.mem_cons.mp hg with rfl | hg
      · exact Or.inl ⟨hk, List.mem_cons_self ..⟩
      · rcases ih hKeys.2 hg with ⟨hne, hOld⟩ | ⟨hEq, ys, hys, hOld | ⟨hNil, hNew⟩⟩
        · exact Or.inl ⟨hne, List.mem_cons_of_mem _ hOld⟩
        · exact Or.inr ⟨hEq, ys, hys, Or.inl (List.mem_cons_of_mem _ hOld)⟩
        · refine Or.inr ⟨hEq, ys, hys, Or.inr ⟨hNil, ?_⟩⟩
          rw [List.map_cons, List.mem_cons]
          rintro (rfl | h)
          · exact hk rfl
          · exact hNew h

/-- An allocation with a key goes into its group, behind those that came first. -/
theorem Groups.push (h : Groups key l groups) (hx : key x = some k) :
    Groups key (l ++ [x]) (pushGroup k x groups) where
  keys := by
    rw [pushGroup_keys]
    split
    · exact h.keys
    · rename_i hNew
      rw [List.nodup_append]
      refine ⟨h.keys, List.nodup_singleton k, fun a ha b hb => ?_⟩
      rw [List.mem_singleton.mp hb]
      rintro rfl
      exact hNew ha
  values g hg := by
    rcases mem_pushGroup h.keys hg with ⟨hne, hOld⟩ | ⟨hEq, ys, hys, hOld⟩
    · obtain ⟨hEq, hNil⟩ := h.values g hOld
      refine ⟨?_, hNil⟩
      rw [List.filter_append, List.filter_cons_of_neg (by simp [hx, Ne.symm hne]), List.filter_nil,
        List.append_nil]
      exact hEq
    · have hPrefix : ys = l.filter (fun x => key x = some k) := by
        rcases hOld with hOld | ⟨rfl, hNew⟩
        · exact (h.values _ hOld).1
        · refine (List.filter_eq_nil_iff.mpr fun y hy hk => ?_).symm
          exact hNew (h.all y hy k (of_decide_eq_true hk))
      rw [hEq, hys]
      refine ⟨?_, by simp⟩
      rw [List.filter_append, List.filter_cons_of_pos (by simp [hx]), List.filter_nil, hPrefix]
  all y hy k' hk' := by
    rw [pushGroup_keys]
    rcases List.mem_append.mp hy with hy | hy
    · have hOld := h.all y hy k' hk'
      split
      · exact hOld
      · exact List.mem_append_left _ hOld
    · cases List.mem_singleton.mp hy
      cases hx.symm.trans hk'
      split
      · assumption
      · exact List.mem_append_right _ (List.mem_singleton.mpr rfl)

/-- The group of a key that occurs. -/
theorem Groups.mem (h : Groups key l groups) (hMem : x ∈ l) (hx : key x = some k) :
    (k, l.filter (fun x => key x = some k)) ∈ groups := by
  obtain ⟨g, hg, rfl⟩ := List.mem_map.mp (h.all x hMem k hx)
  rw [← (h.values g hg).1]
  exact hg

end Groups

-- ---------------------------------------------------------------------------
-- The donors' side
-- ---------------------------------------------------------------------------

/-- The region after `ids` have been struck and `n` bytes taken off. -/
def DonatableRegion.strike (r : DonatableRegion) (n : Nat) (ids : List AllocId) :
    DonatableRegion :=
  { r with
    donated := r.donated - n
    allocations := r.allocations.eraseAll ids }

@[simp] theorem DonatableRegion.strike_path (r : DonatableRegion) (n : Nat) (ids : List AllocId) :
    (r.strike n ids).path = r.path := rfl

/-- The region after `ids` have been returned to it. -/
def DonatableRegion.returned (r : DonatableRegion) (ids : List AllocId) : DonatableRegion :=
  r.strike (ids.length * granularity) ids

@[simp] theorem DonatableRegion.returned_path (r : DonatableRegion) (ids : List AllocId) :
    (r.returned ids).path = r.path := r.strike_path _ ids

/-- Writing back a region's own path changes nothing. -/
theorem DonatableRegion.with_path {r : DonatableRegion} {path : QomPath} (h : path = r.path) :
    { r with path := path } = r := by rw [h]

/-- Giving back nothing changes nothing. -/
theorem DonatableRegion.returned_nil (r : DonatableRegion) : r.returned [] = r := by
  have hAll : r.allocations.eraseAll [] = r.allocations := by
    simp [OrdMap.eraseAll, OrdMap.filterKeys]
  rw [DonatableRegion.returned, DonatableRegion.strike, hAll, List.length_nil, Nat.zero_mul,
    Nat.sub_zero]

/-- Striking one by one comes to striking all at once. -/
theorem DonatableRegion.strike_strike (r : DonatableRegion) (n m : Nat) (ids : List AllocId)
    (x : AllocId) : (r.strike n ids).strike m [x] = r.strike (n + m) (ids ++ [x]) := by
  have hErase : (r.allocations.eraseAll ids).eraseAll [x] = r.allocations.eraseAll (ids ++ [x]) := by
    simp only [OrdMap.eraseAll, OrdMap.filterKeys, OrdMap.mk.injEq, List.filter_filter]
    refine List.filter_congr fun e _ => ?_
    simp [and_comm]
  simp only [DonatableRegion.strike, hErase, Nat.sub_sub]

/-- With enough donated, `bookkeep_return` strikes one granule. -/
theorem DonatableRegion.bookkeep_eq {r : DonatableRegion} {x : AllocId}
    (hx : r.allocations.contains x = true) (hEnough : granularity ≤ r.donated) :
    r.bookkeep x = r.strike granularity [x] := by
  obtain ⟨y, hy⟩ := OrdMap.contains_iff.mp hx
  have hErase : r.allocations.erase x = r.allocations.eraseAll [x] := by
    simp [OrdMap.erase, OrdMap.eraseAll]
  unfold DonatableRegion.bookkeep DonatableRegion.strike
  generalize granularity = g at hEnough ⊢
  rw [hy, hErase]
  simp only [if_neg (Nat.not_lt.mpr hEnough)]

/-- One more is struck. -/
theorem DonatableRegion.bookkeep_returned {r : DonatableRegion} {ids : List AllocId} {x : AllocId}
    (hx : r.allocations.contains x = true) (hNew : x ∉ ids)
    (hCovered : (ids.length + 1) * granularity ≤ r.donated) :
    (r.returned ids).bookkeep x = r.returned (ids ++ [x]) := by
  rw [Nat.succ_mul] at hCovered
  rw [DonatableRegion.returned, DonatableRegion.returned, List.length_append,
    List.length_singleton, Nat.succ_mul]
  generalize ids.length * granularity = taken at hCovered ⊢
  have hThere : (r.strike taken ids).allocations.contains x = true := by
    rw [OrdMap.contains, DonatableRegion.strike, OrdMap.get?_eraseAll, if_neg hNew]
    exact hx
  have hEnough : granularity ≤ (r.strike taken ids).donated := Nat.le_sub_of_add_le' hCovered
  rw [DonatableRegion.bookkeep_eq hThere hEnough, DonatableRegion.strike_strike]

namespace GiveBack

/-- The allocations struck so far. -/
def booked (g : GiveBack) : List AllocId :=
  match g.pc with
  | .send => []
  | .book todo => g.ids.take (g.ids.length - todo.length)
  | .done => g.ids

/-- What is not left to do was done. -/
theorem booked_book {d : DonorAllocation} {ids pre todo : List AllocId} (h : ids = pre ++ todo) :
    (⟨d, ids, .book todo⟩ : GiveBack).booked = pre := by
  subst h
  simp [GiveBack.booked]

/-- The return commands sent so far. -/
def sent (g : GiveBack) : List (Nat × Bool) :=
  match g.pc with
  | .send => []
  | _ => [(g.ids.length * granularity, true)]

end GiveBack

/-- What the calls have struck from the books of `d`. -/
def bookedFrom (calls : List GiveBack) (d : DonorAllocation) : List AllocId :=
  match calls.find? fun g => decide (g.donor = d) with
  | none => []
  | some g => g.booked

def sentTo (calls : List GiveBack) (d : DonorAllocation) : List (Nat × Bool) :=
  match calls.find? fun g => decide (g.donor = d) with
  | none => []
  | some g => g.sent

/-- Each region is called once, for distinct allocations in its books. -/
structure Returnable (s : Shared) (groups : List (DonorAllocation × List AllocId)) : Prop where
  donors : (groups.map Prod.fst).Nodup
  distinct : ∀ g ∈ groups, g.2.Nodup
  recorded : ∀ g ∈ groups, ∃ r, s.region? g.1 = some r ∧
    (∀ x ∈ g.2, r.allocations.contains x = true) ∧ g.2.length * granularity ≤ r.donated

/-- Calls to the donors that began in `s`. -/
structure GiveBackInv (groups : List (DonorAllocation × List AllocId)) (s t : Shared)
    (calls : List GiveBack) : Prop where
  called : calls.map (fun g => (g.donor, g.ids)) = groups
  aside : Aside s t
  alloc : t.alloc = s.alloc
  areas : t.allocatedAreas = s.allocatedAreas
  unlocked : t.consumerLock = s.consumerLock
  regions : ∀ v, (t.donor v).donatableRegions = (s.donor v).donatableRegions.map fun r =>
    r.returned (bookedFrom calls ⟨v, r.path⟩)
  returns : ∀ d, t.returnsTo d = sentTo calls d ++ s.returnsTo d
  todo : ∀ g ∈ calls, ∀ todo, g.pc = .book todo → ∃ pre, g.ids = pre ++ todo

section GiveBack

variable {groups : List (DonorAllocation × List AllocId)} {s t : Shared} {calls : List GiveBack}
  {g g' : GiveBack}

/-- The regions of the donors, each changed in its place. -/
theorem region?_map {s t : Shared} {f : DonorAllocation → DonatableRegion → DonatableRegion}
    (hPath : ∀ d r, (f d r).path = r.path)
    (h : ∀ v, (t.donor v).donatableRegions =
      (s.donor v).donatableRegions.map fun r => f ⟨v, r.path⟩ r) (d : DonorAllocation) :
    t.region? d = (s.region? d).map (f d) := by
  obtain ⟨v, path⟩ := d
  unfold Shared.region? DonorState.findRegion
  rw [h v, List.find?_map]
  have hSame : ((fun r => decide (r.path = path)) ∘ fun r => f ⟨v, r.path⟩ r) =
      fun r => decide (r.path = path) := by
    funext r
    simp [hPath]
  rw [hSame]
  cases hFind : (s.donor v).donatableRegions.find? fun r => decide (r.path = path) with
  | none => rfl
  | some r =>
    have hAt : r.path = path := by simpa using List.find?_some hFind
    simp [hAt]

/-- The calls go to different regions: one that moves is the only one there. -/
theorem find?_set_donor {i : Nat} (hNodup : (calls.map GiveBack.donor).Nodup)
    (hi : calls[i]? = some g) (hDonor : g'.donor = g.donor) (d : DonorAllocation) :
    (calls.set i g').find? (fun g => decide (g.donor = d)) =
      if g.donor = d then some g' else calls.find? (fun g => decide (g.donor = d)) := by
  induction calls generalizing i with
  | nil => cases hi
  | cons a rest ih =>
    rw [List.map_cons, List.nodup_cons] at hNodup
    cases i with
    | zero =>
      cases hi
      rw [List.set_cons_zero, List.find?_cons, hDonor, List.find?_cons]
      by_cases hd : g.donor = d
      · simp [hd]
      · simp [hd]
    | succ i =>
      have hi : rest[i]? = some g := hi
      rw [List.set_cons_succ, List.find?_cons, ih hNodup.2 hi, List.find?_cons]
      by_cases ha : a.donor = d
      · have hne : g.donor ≠ d := by
          intro hg
          refine hNodup.1 ?_
          rw [ha, ← hg]
          exact List.mem_map_of_mem (List.mem_of_getElem? hi)
        simp [ha, hne]
      · simp [ha]

/-- Each donor has one give-back. -/
theorem find?_donor {i : Nat} (hNodup : (calls.map GiveBack.donor).Nodup)
    (hi : calls[i]? = some g) :
    calls.find? (fun u => decide (u.donor = g.donor)) = some g := by
  have hSet := find?_set_donor hNodup hi rfl g.donor
  obtain ⟨hLt, hEq⟩ := List.getElem?_eq_some_iff.mp hi
  rw [if_pos rfl, ← hEq, List.set_getElem_self, hEq] at hSet
  exact hSet

/-- The groups are one for each donor, and so are the give-backs. -/
theorem GiveBackInv.donors (h : GiveBackInv groups s t calls) (hRet : Returnable s groups) :
    (calls.map GiveBack.donor).Nodup := by
  have hMap : groups.map Prod.fst = calls.map GiveBack.donor := by
    rw [← h.called, List.map_map]
    rfl
  rw [← hMap]
  exact hRet.donors

/-- A give-back strikes from its own region only, so the others keep what they have done. -/
theorem GiveBackInv.step {i : Nat} {op : Op} (h : GiveBackInv groups s t calls)
    (hRet : Returnable s groups) (hi : calls[i]? = some g) (hs : GiveBack.Step t g op g')
    (hOk : ∀ d n ids, op ≠ .ephMemReturnCapacity d n ids false) :
    GiveBackInv groups s (op.exec t) (calls.set i g') := by
  have hSame : g'.donor = g.donor ∧ g'.ids = g.ids := by cases hs <;> exact ⟨rfl, rfl⟩
  have hCalled : (calls.set i g').map (fun g => (g.donor, g.ids)) = groups := by
    rw [← h.called]
    exact map_set_same hi (by rw [hSame.1, hSame.2])
  have hFind := find?_set_donor (h.donors hRet) hi hSame.1
  have hOld := find?_donor (h.donors hRet) hi
  have hBooked : ∀ d, bookedFrom (calls.set i g') d =
      if g.donor = d then g'.booked else bookedFrom calls d := by
    intro d
    rw [bookedFrom, hFind]
    by_cases hd : g.donor = d
    · rw [if_pos hd, if_pos hd]
    · rw [if_neg hd, if_neg hd, bookedFrom]
  have hSent : ∀ d, sentTo (calls.set i g') d =
      if g.donor = d then g'.sent else sentTo calls d := by
    intro d
    rw [sentTo, hFind]
    by_cases hd : g.donor = d
    · rw [if_pos hd, if_pos hd]
    · rw [if_neg hd, if_neg hd, sentTo]
  have hWas : bookedFrom calls g.donor = g.booked ∧ sentTo calls g.donor = g.sent := by
    rw [bookedFrom, sentTo, hOld]
    exact ⟨rfl, rfl⟩
  -- a step that strikes nothing
  have hKeep : g'.booked = g.booked → ∀ d, bookedFrom (calls.set i g') d = bookedFrom calls d := by
    intro hEq d
    rw [hBooked, hEq, ← hWas.1]
    split
    · rename_i hd
      rw [hd]
    · rfl
  have hKeepSent : g'.sent = g.sent → ∀ d, sentTo (calls.set i g') d = sentTo calls d := by
    intro hEq d
    rw [hSent, hEq, ← hWas.2]
    split
    · rename_i hd
      rw [hd]
    · rfl
  have hTodo := h.todo g (List.mem_of_getElem? hi)
  have hMem := List.mem_of_getElem? hi
  cases hs with
  | @sent d ids =>
    have hNone : (⟨d, ids, .book ids⟩ : GiveBack).booked = [] := by simp [GiveBack.booked]
    refine ⟨hCalled, h.aside.trans rfl, h.alloc, h.areas, h.unlocked, fun v => ?_, fun d' => ?_,
      forall_set h.todo fun todo hpc => ?_⟩
    · simp only [hKeep hNone]
      exact h.regions v
    · have hOne : ((Op.ephMemReturnCapacity d (ids.length * granularity) ids true).exec t).returnsTo
          d' = (if d = d' then [(ids.length * granularity, true)] else []) ++ t.returnsTo d' := by
        rw [Shared.returnsTo, log_exec, List.filterMap_append]
        congr 1
        by_cases hd : d = d'
        · simp [Op.outputs, Output.returnTo?, hd]
        · simp [Op.outputs, Output.returnTo?, hd]
      rw [hSent, hOne, h.returns]
      by_cases hd : d = d'
      · subst hd
        have hNothing : sentTo calls d = [] := hWas.2
        rw [if_pos rfl, if_pos rfl, hNothing]
        rfl
      · rw [if_neg hd, if_neg hd, List.nil_append]
    · cases hpc
      exact ⟨[], rfl⟩
  | @failed d ids => exact absurd rfl (hOk _ _ _)
  | @book d ids todo x hFree =>
    obtain ⟨pre, hSplit⟩ := hTodo _ rfl
    have hSplit : ids = pre ++ x :: todo := hSplit
    have hBefore : bookedFrom calls d = pre := hWas.1.trans (GiveBack.booked_book hSplit)
    have hAfter : (⟨d, ids, .book todo⟩ : GiveBack).booked = pre ++ [x] :=
      GiveBack.booked_book (by rw [hSplit, List.append_assoc]; rfl)
    have hGroup : (d, ids) ∈ groups := h.called ▸ List.mem_map_of_mem hMem
    obtain ⟨r, hr, hRecorded, hCovered⟩ := hRet.recorded _ hGroup
    have hx : r.allocations.contains x = true :=
      hRecorded x (hSplit ▸ List.mem_append_cons_self)
    have hNew : x ∉ pre := by
      have hNodup : ids.Nodup := hRet.distinct _ hGroup
      rw [hSplit] at hNodup
      exact fun hx => (List.nodup_append.mp hNodup).2.2 x hx x (List.mem_cons_self ..) rfl
    have hEnough : (pre.length + 1) * granularity ≤ r.donated := by
      refine le_trans (Nat.mul_le_mul_right _ ?_) hCovered
      simp [hSplit]
    have hNow : t.region? d = some (r.returned pre) := by
      rw [region?_map (f := fun d r => r.returned (bookedFrom calls d))
        (fun _ r => r.returned_path _) h.regions,
        hr, Option.map_some, hBefore]
    have hExec : ((Op.bookkeep d x).exec t).donor = (t.modifyRegion d (·.bookkeep x)).donor := by
      simp only [Op.exec, hNow]
      split <;> rfl
    have hFrame : ((Op.bookkeep d x).exec t).alloc = t.alloc ∧
        ((Op.bookkeep d x).exec t).allocatedAreas = t.allocatedAreas ∧
        ((Op.bookkeep d x).exec t).consumerLock = t.consumerLock := by
      simp only [Op.exec, hNow]
      split <;> exact ⟨rfl, rfl, rfl⟩
    refine ⟨hCalled, h.aside.trans (aside_exec rfl t), hFrame.1.trans h.alloc,
      hFrame.2.1.trans h.areas, hFrame.2.2.trans h.unlocked, fun v => ?_, fun d' => ?_,
      forall_set h.todo fun todo' hpc => ?_⟩
    · rw [hExec]
      by_cases hv : v = d.donorVm
      · subst hv
        have hHere : ((t.modifyRegion d (·.bookkeep x)).donor d.donorVm).donatableRegions =
            (t.donor d.donorVm).donatableRegions.map fun r =>
              if r.path = d.donorQomPath then { r.bookkeep x with path := r.path } else r := by
          rw [Shared.modifyRegion]
          simp only [Function.update_self]
          rfl
        rw [hHere, h.regions, List.map_map]
        refine List.map_congr_left fun r' hr' => ?_
        simp only [Function.comp_apply, hBooked]
        by_cases hPath : r'.path = d.donorQomPath
        · have hd : (⟨d.donorVm, r'.path⟩ : DonorAllocation) = d := by rw [hPath]
          have hFound : s.region? ⟨d.donorVm, r'.path⟩ = some r' := DonorState.findRegion_of_mem hr'
          rw [hd, hr] at hFound
          cases hFound
          rw [hd, DonatableRegion.returned_path, if_pos hPath, if_pos rfl, hAfter, hBefore,
            DonatableRegion.bookkeep_returned hx hNew hEnough]
          exact DonatableRegion.with_path (DonatableRegion.returned_path ..).symm
        · have hne : d ≠ ⟨d.donorVm, r'.path⟩ := fun heq =>
            hPath (congrArg DonorAllocation.donorQomPath heq).symm
          rw [DonatableRegion.returned_path, if_neg hPath, if_neg hne]
      · have hOther : ∀ path, d ≠ ⟨v, path⟩ := by
          rintro path rfl
          exact hv rfl
        have hHere : (t.modifyRegion d (·.bookkeep x)).donor v = t.donor v :=
          Function.update_of_ne hv _ _
        simp only [hBooked, hOther, if_false, hHere]
        exact h.regions v
    · rw [hKeepSent rfl, returnsTo_exec fun _ _ _ => Op.noConfusion]
      exact h.returns d'
    · cases hpc
      exact ⟨pre ++ [x], by rw [List.append_assoc]; exact hSplit⟩
  | @booked d ids =>
    have hAll : (⟨d, ids, .book []⟩ : GiveBack).booked = ids := by simp [GiveBack.booked]
    refine ⟨hCalled, h.aside, h.alloc, h.areas, h.unlocked, fun v => ?_, fun d' => ?_,
      forall_set h.todo (by simp)⟩
    · simp only [hKeep hAll.symm]
      exact h.regions v
    · rw [hKeepSent rfl]
      exact h.returns d'

end GiveBack

-- ---------------------------------------------------------------------------
-- The whole call
-- ---------------------------------------------------------------------------

/-- The consumer an allocation is released at, unless it is gone. -/
def Shared.consumerKey (s : Shared) (x : AllocId) : Option VmId :=
  if s.exited (s.alloc x).consumerVm then none else some (s.alloc x).consumerVm

/-- The region an allocation is returned to, if a donor committed it and is
still there. -/
def Shared.donorKey (s : Shared) (x : AllocId) : Option DonorAllocation :=
  match (s.alloc x).abandonOrTakeDonor.1 with
  | none => none
  | some d => if s.exited d.donorVm then none else some d

/-- An allocation is grouped under its consumer while that VM is there. -/
theorem consumerKey_some {s : Shared} {x : AllocId} {c : VmId} (h : s.consumerKey x = some c) :
    (s.alloc x).consumerVm = c ∧ s.exited c = false := by
  rw [Shared.consumerKey] at h
  split at h
  · cases h
  · rename_i hAlive
    cases h
    exact ⟨rfl, Bool.eq_false_of_not_eq_true hAlive⟩

/-- An allocation is grouped under the donor it is taken for, while that VM is there. -/
theorem donorKey_some {s : Shared} {x : AllocId} {d : DonorAllocation} (h : s.donorKey x = some d) :
    (s.alloc x).abandonOrTakeDonor.1 = some d ∧ s.exited d.donorVm = false := by
  rw [Shared.donorKey] at h
  split at h
  · cases h
  · rename_i d' hd
    split at h
    · cases h
    · rename_i hAlive
      cases h
      exact ⟨hd, Bool.eq_false_of_not_eq_true hAlive⟩

/-- A return releases the area of the allocation. -/
def Shared.frees (s : Shared) (x : AllocId) : Bool :=
  !s.exited (s.alloc x).consumerVm && decide (s.Claimable (s.alloc x).consumerVm x)

/-- The listed allocations that are returned to the region `d`. -/
def Shared.taken (s : Shared) (allocs : List AllocId) (d : DonorAllocation) : List AllocId :=
  allocs.filter fun x => s.donorKey x = some d

/-- A list a return can start with, while nothing else is under way. -/
structure Returnables (s : Shared) (allocs : List AllocId) : Prop where
  distinct : allocs.Nodup
  areas : AreasOk s
  books : BooksOk s
  alone : ∀ x ∈ allocs, ∀ y,
    (s.allocatedAreas (s.alloc x).consumerVm).get? (s.offsetOf x) = some y → y = x
  recorded : ∀ x ∈ allocs, ∀ d, (s.alloc x).abandonOrTakeDonor.1 = some d →
    s.recorded d x = true
  donorsFree : ∀ v, s.donorLock v = none
  consumersFree : ∀ c, s.consumerLock c = none

/-- The first part of a call that began in `s`: the allocations in `pre` have
been abandoned. -/
structure Organizing (s : Shared) (pre : List AllocId) (t : Shared) : Prop where
  aside : Aside s t
  alloc : ∀ x, t.alloc x = if x ∈ pre then { s.alloc x with state := .abandoned } else s.alloc x
  areas : t.allocatedAreas = s.allocatedAreas
  donor : t.donor = s.donor
  unlocked : t.consumerLock = s.consumerLock
  returns : ∀ d, t.returnsTo d = s.returnsTo d

/-- A call for `allocs` that began in `s`. -/
def ReturnInv (s : Shared) (allocs : List AllocId) (t : Shared) (r : ReturnCall) : Prop :=
  match r.pc with
  | .organize todo cons dons => ∃ pre, allocs = pre ++ todo ∧ Organizing s pre t ∧
      Groups s.consumerKey pre cons ∧ Groups s.donorKey pre dons
  | .take x todo cons dons => ∃ pre, allocs = pre ++ x :: todo ∧ Organizing s pre t ∧
      Groups s.consumerKey (pre ++ [x]) cons ∧ Groups s.donorKey pre dons
  | .check x d todo cons dons => ∃ pre, allocs = pre ++ x :: todo ∧
      Organizing s (pre ++ [x]) t ∧ Groups s.consumerKey (pre ++ [x]) cons ∧
      Groups s.donorKey pre dons ∧ (s.alloc x).abandonOrTakeDonor.1 = some d
  | .release calls dons => ∃ u given, Organizing s allocs u ∧ ReleaseInv given u t calls ∧
      Groups s.consumerKey allocs given ∧ Groups s.donorKey allocs dons
  | .giveBack calls => ∃ u v given dons, Organizing s allocs u ∧ ReleasedAll given u v ∧
      GiveBackInv dons v t calls ∧ Groups s.consumerKey allocs given ∧
      Groups s.donorKey allocs dons
  | .done => ∃ u v given dons calls, Organizing s allocs u ∧ ReleasedAll given u v ∧
      GiveBackInv dons v t calls ∧ Groups s.consumerKey allocs given ∧
      Groups s.donorKey allocs dons ∧ ∀ g ∈ calls, g.pc = .done

section Call

variable {s t u v : Shared} {allocs : List AllocId}

/-- Organizing moves no allocation. -/
theorem Organizing.offsetOf {pre : List AllocId} (h : Organizing s pre t) :
    t.offsetOf = s.offsetOf := by
  funext x
  rw [Shared.offsetOf, h.alloc x, Shared.offsetOf]
  split <;> rfl

/-- Organizing does not change whose an allocation is. -/
theorem Organizing.consumerVm {pre : List AllocId} (h : Organizing s pre t) (x : AllocId) :
    (t.alloc x).consumerVm = (s.alloc x).consumerVm := by
  rw [h.alloc x]
  split <;> rfl

/-- Organizing marks no allocation. -/
theorem Organizing.requested {pre : List AllocId} (h : Organizing s pre t) (x : AllocId) :
    (t.alloc x).releaseRequested = (s.alloc x).releaseRequested := by
  rw [h.alloc x]
  split <;> rfl

/-- The releases find what was there before the call began to organize. -/
theorem Organizing.claimable {pre : List AllocId} (h : Organizing s pre t) (c : VmId)
    (x : AllocId) : t.Claimable c x ↔ s.Claimable c x := by
  rw [Shared.Claimable, Shared.Claimable, h.areas, h.offsetOf, h.requested]

/-- The allocation is abandoned next. -/
theorem Organizing.abandon {pre : List AllocId} {x : AllocId} (h : Organizing s pre t)
    (hx : x ∉ pre) : Organizing s (pre ++ [x]) ((Op.abandon x).exec t) where
  aside := h.aside.trans rfl
  alloc y := by
    have hSelf : t.alloc x = s.alloc x := by rw [h.alloc x, if_neg hx]
    simp only [Op.exec, Shared.setAlloc, Shared.emit]
    by_cases hyx : y = x
    · subst hyx
      rw [Function.update_self, hSelf, abandonOrTakeDonor_snd, if_pos]
      exact List.mem_append_right _ (List.mem_singleton.mpr rfl)
    · rw [Function.update_of_ne hyx, h.alloc y]
      simp [hyx]
  areas := h.areas
  donor := h.donor
  unlocked := h.unlocked
  returns d := (returnsTo_exec (fun _ _ _ => Op.noConfusion)).trans (h.returns d)

/-- The release calls are for different consumers and allocations. -/
theorem Organizing.separate (h : Organizing s allocs u) (hReady : Returnables s allocs)
    {given : List (VmId × List AllocId)} (hGroups : Groups s.consumerKey allocs given) :
    Separate u given := by
  have hMember : ∀ g ∈ given, ∀ x ∈ g.2, x ∈ allocs ∧ (s.alloc x).consumerVm = g.1 := by
    intro g hg x hx
    rw [(hGroups.values g hg).1, List.mem_filter] at hx
    exact ⟨hx.1, (consumerKey_some (of_decide_eq_true hx.2)).1⟩
  refine ⟨?_, hGroups.keys, fun g hg => ?_, fun g hg x hx => ?_, fun g hg x hx y hy => ?_⟩
  · intro c o x hx
    rw [h.areas] at hx
    have hOld := hReady.areas c o x hx
    rw [h.aside.nextId, h.consumerVm, h.offsetOf, h.aside.vm]
    exact hOld
  · rw [(hGroups.values g hg).1]
    exact hReady.distinct.filter _
  · rw [h.consumerVm]
    exact (hMember g hg x hx).2
  · obtain ⟨hMem, hConsumer⟩ := hMember g hg x hx
    rw [h.areas, h.offsetOf, ← hConsumer] at hy
    exact hReady.alone x hMem y hy

/-- What the release calls release is what the return frees. -/
theorem Organizing.fires (h : Organizing s allocs u) {given : List (VmId × List AllocId)}
    (hGroups : Groups s.consumerKey allocs given) (x : AllocId) :
    u.fires given x = (decide (x ∈ allocs) && s.frees x) := by
  rw [Bool.eq_iff_iff, fires_iff, Bool.and_eq_true, decide_eq_true_iff, Shared.frees,
    Bool.and_eq_true, decide_eq_true_iff, Bool.not_eq_true']
  constructor
  · rintro ⟨g, hg, hx, hc⟩
    rw [(hGroups.values g hg).1, List.mem_filter] at hx
    obtain ⟨hConsumer, hAlive⟩ := consumerKey_some (of_decide_eq_true hx.2)
    rw [hConsumer]
    exact ⟨hx.1, hAlive, (h.claimable _ x).mp hc⟩
  · rintro ⟨hMem, hAlive, hc⟩
    have hKey : s.consumerKey x = some (s.alloc x).consumerVm := by
      rw [Shared.consumerKey, hAlive]
      rfl
    refine ⟨_, hGroups.mem hMem hKey, ?_, (h.claimable _ x).mpr hc⟩
    exact List.mem_filter.mpr ⟨hMem, decide_eq_true hKey⟩

/-- A region is called for allocations in its books. -/
theorem Returnables.returnable (hReady : Returnables s allocs) (hDonor : v.donor = s.donor)
    {dons : List (DonorAllocation × List AllocId)} (h : Groups s.donorKey allocs dons) :
    Returnable v dons := by
  refine ⟨h.keys, fun g hg => ?_, fun g hg => ?_⟩
  · rw [(h.values g hg).1]
    exact hReady.distinct.filter _
  · obtain ⟨hFilter, hSome⟩ := h.values g hg
    have hRecorded : ∀ x ∈ g.2, s.recorded g.1 x = true := by
      intro x hx
      rw [hFilter, List.mem_filter] at hx
      exact hReady.recorded x hx.1 _ (donorKey_some (of_decide_eq_true hx.2)).1
    have hNodup : g.2.Nodup := hFilter ▸ hReady.distinct.filter _
    obtain ⟨x, hx⟩ := List.exists_mem_of_ne_nil _ hSome
    have hRegion : v.region? g.1 = s.region? g.1 := by
      rw [Shared.region?, hDonor, Shared.region?]
    cases hr : s.region? g.1 with
    | none =>
      have hFalse := hRecorded x hx
      rw [Shared.recorded, hr] at hFalse
      cases hFalse
    | some r =>
      have hThere : ∀ y ∈ g.2, r.allocations.contains y = true := by
        intro y hy
        have hRec := hRecorded y hy
        rw [Shared.recorded, hr] at hRec
        exact hRec
      refine ⟨r, hRegion.trans hr, hThere, ?_⟩
      have hSize := OrdMap.size_eraseAll hNodup fun y hy => OrdMap.contains_iff.mp (hThere y hy)
      refine le_trans ?_ (hReady.books g.1 r hr).covered
      rw [Nat.mul_comm]
      exact Nat.mul_le_mul_left _ (hSize ▸ Nat.le_add_left ..)

/-- Before the first step no give-back has done anything. -/
theorem GiveBackInv.init (v : Shared) (dons : List (DonorAllocation × List AllocId)) :
    GiveBackInv dons v v (dons.map fun g => ⟨g.1, g.2, .send⟩) := by
  have hNone : ∀ {g : GiveBack} {d : DonorAllocation},
      (dons.map fun g => (⟨g.1, g.2, .send⟩ : GiveBack)).find? (fun g => decide (g.donor = d)) =
        some g → g.pc = .send := by
    intro g d hg
    obtain ⟨g', -, rfl⟩ := List.mem_map.mp (List.mem_of_find?_eq_some hg)
    rfl
  have hBooked : ∀ d, bookedFrom (dons.map fun g => ⟨g.1, g.2, .send⟩) d = [] := by
    intro d
    unfold bookedFrom
    split
    · rfl
    · rename_i g hg
      rw [GiveBack.booked, hNone hg]
  have hSent : ∀ d, sentTo (dons.map fun g => ⟨g.1, g.2, .send⟩) d = [] := by
    intro d
    unfold sentTo
    split
    · rfl
    · rename_i g hg
      rw [GiveBack.sent, hNone hg]
  refine ⟨?_, .refl v, rfl, rfl, rfl, fun w => ?_, fun d => by rw [hSent d, List.nil_append], ?_⟩
  · rw [List.map_map]
    exact List.map_id _
  · simp only [hBooked, DonatableRegion.returned_nil]
    exact (List.map_id _).symm
  · intro g hg todo hpc
    obtain ⟨g', -, rfl⟩ := List.mem_map.mp hg
    cases hpc

/-- A step of the call; a return command it sends succeeds. -/
def ReturnCall.Moves (tid : Tid) (s : Shared) (r : ReturnCall) (op : Op) (r' : ReturnCall) : Prop :=
  (∃ ch, r.next tid s ch = some (op, r')) ∧ ∀ d n ids, op ≠ .ephMemReturnCapacity d n ids false

/-- **One step of the call.** Each step does the next part of what the call is to do. -/
theorem ReturnInv.step {tid : Tid} {r r' : ReturnCall} {op : Op} (h : ReturnInv s allocs t r)
    (hReady : Returnables s allocs) (hs : ReturnCall.Step tid t r op r')
    (hOk : ∀ d n ids, op ≠ .ephMemReturnCapacity d n ids false) :
    ReturnInv s allocs (op.exec t) r' := by
  -- what is still to be organized is as it was when the call began
  have hSame : ∀ {pre todo : List AllocId} {x : AllocId}, allocs = pre ++ x :: todo →
      Organizing s pre t → x ∉ pre ∧ t.alloc x = s.alloc x := by
    intro pre todo x hSplit hOrg
    have hNodup := hReady.distinct
    rw [hSplit] at hNodup
    have hNew : x ∉ pre := fun hx =>
      (List.nodup_append.mp hNodup).2.2 x hx x (List.mem_cons_self ..) rfl
    exact ⟨hNew, by rw [hOrg.alloc x, if_neg hNew]⟩
  cases hs with
  | @group l todo x cons dons hAlive =>
    obtain ⟨pre, hSplit, hOrg, hCons, hDons⟩ := h
    rw [hOrg.consumerVm, hOrg.aside.exited] at hAlive
    refine ⟨pre, hSplit, hOrg, ?_, hDons⟩
    rw [hOrg.consumerVm]
    exact hCons.push (if_neg (Bool.eq_false_iff.mp hAlive))
  | @consumerGone l todo x cons dons hGone =>
    obtain ⟨pre, hSplit, hOrg, hCons, hDons⟩ := h
    rw [hOrg.consumerVm, hOrg.aside.exited] at hGone
    exact ⟨pre, hSplit, hOrg, hCons.skip (if_pos hGone), hDons⟩
  | @organized l cons dons =>
    obtain ⟨pre, hSplit, hOrg, hCons, hDons⟩ := h
    rw [List.append_nil] at hSplit
    subst hSplit
    refine ⟨t, cons, hOrg, ?_, hCons, hDons⟩
    refine .init (fun c => ?_) ?_ fun r hr => ?_
    · rw [hOrg.unlocked]
      exact hReady.consumersFree c
    · rw [List.map_map]
      exact List.map_id _
    · obtain ⟨g, -, rfl⟩ := List.mem_map.mp hr
      rfl
  | @notTaken l todo x cons dons hNone =>
    obtain ⟨pre, hSplit, hOrg, hCons, hDons⟩ := h
    obtain ⟨hNew, hx⟩ := hSame hSplit hOrg
    rw [hx] at hNone
    refine ⟨pre ++ [x], ?_, hOrg.abandon hNew, hCons, hDons.skip ?_⟩
    · rw [List.append_assoc]
      exact hSplit
    · rw [Shared.donorKey, hNone]
  | @taken l todo x cons dons d hSome =>
    obtain ⟨pre, hSplit, hOrg, hCons, hDons⟩ := h
    obtain ⟨hNew, hx⟩ := hSame hSplit hOrg
    rw [hx] at hSome
    exact ⟨pre, hSplit, hOrg.abandon hNew, hCons, hDons, hSome⟩
  | @donorThere l todo x cons dons d hAlive =>
    obtain ⟨pre, hSplit, hOrg, hCons, hDons, hSome⟩ := h
    rw [hOrg.aside.exited] at hAlive
    refine ⟨pre ++ [x], ?_, hOrg, hCons, hDons.push ?_⟩
    · rw [List.append_assoc]
      exact hSplit
    · rw [Shared.donorKey, hSome]
      exact if_neg (Bool.eq_false_iff.mp hAlive)
  | @donorGone l todo x cons dons d hGone =>
    obtain ⟨pre, hSplit, hOrg, hCons, hDons, hSome⟩ := h
    rw [hOrg.aside.exited] at hGone
    refine ⟨pre ++ [x], ?_, hOrg, hCons, hDons.skip ?_⟩
    · rw [List.append_assoc]
      exact hSplit
    · rw [Shared.donorKey, hSome]
      exact if_pos hGone
  | release hi hStep =>
    obtain ⟨u, given, hOrg, hRel, hCons, hDons⟩ := h
    exact ⟨u, given, hOrg, hRel.step (hOrg.separate hReady hCons) hi hStep, hCons, hDons⟩
  | @released l calls dons hAll =>
    obtain ⟨u, given, hOrg, hRel, hCons, hDons⟩ := h
    have hEnd := hRel.released (hOrg.separate hReady hCons) hAll
    exact ⟨u, t, given, dons, hOrg, hEnd, .init t dons, hCons, hDons⟩
  | giveBack hi hStep =>
    obtain ⟨u, v, given, dons, hOrg, hRel, hGive, hCons, hDons⟩ := h
    have hRet := hReady.returnable (hRel.donor.trans hOrg.donor) hDons
    exact ⟨u, v, given, dons, hOrg, hRel, hGive.step hRet hi hStep hOk, hCons, hDons⟩
  | @returned l calls hAll =>
    obtain ⟨u, v, given, dons, hOrg, hRel, hGive, hCons, hDons⟩ := h
    exact ⟨u, v, given, dons, calls, hOrg, hRel, hGive, hCons, hDons, hAll⟩

/-- While the call releases, QEMU confirms. -/
def ReturnCall.Env (t : Shared) (r : ReturnCall) (op : Op) : Prop :=
  ∃ calls dons, r.pc = .release calls dons ∧ Confirms t calls op

/-- What the environment does meanwhile leaves the call where it was. -/
theorem ReturnInv.env {r : ReturnCall} {op : Op} (h : ReturnInv s allocs t r)
    (hOp : r.Env t op) : ReturnInv s allocs (op.exec t) r := by
  obtain ⟨calls, dons, hPc, hConfirms⟩ := hOp
  rw [ReturnInv, hPc] at h ⊢
  obtain ⟨u, given, hOrg, hRel, hCons, hDons⟩ := h
  exact ⟨u, given, hOrg, hRel.confirm hConfirms, hCons, hDons⟩

theorem ReturnInv.init (s : Shared) (allocs : List AllocId) :
    ReturnInv s allocs s (.start allocs) :=
  ⟨[], rfl, ⟨.refl s, fun _ => rfl, rfl, rfl, rfl, fun _ => rfl⟩, .nil, .nil⟩

end Call

-- ---------------------------------------------------------------------------
-- Getting there
-- ---------------------------------------------------------------------------

/-- More than the steps left to the call, with those of the calls it makes. -/
def ReturnCall.left (r : ReturnCall) : Nat :=
  let groups {κ : Type} (l : List (κ × List AllocId)) := (l.map fun g => g.2.length + 7).sum
  match r.pc with
  | .organize todo cons dons => 20 * todo.length + groups cons + groups dons + 4
  | .take _ todo cons dons => 20 * todo.length + 10 + groups cons + groups dons + 4
  | .check _ _ todo cons dons => 20 * todo.length + 9 + groups cons + groups dons + 4
  | .release calls dons => (calls.map ReleaseCall.left).sum + groups dons + 3
  | .giveBack calls => (calls.map GiveBack.left).sum + 2
  | .done => 0

/-- Grouping costs an allocation and at most one new group. -/
theorem sum_pushGroup_le {κ : Type} [DecidableEq κ] (k : κ) (x : AllocId)
    (l : List (κ × List AllocId)) :
    ((pushGroup k x l).map fun g => g.2.length + 7).sum ≤
      (l.map fun g => g.2.length + 7).sum + 8 := by
  induction l with
  | nil => simp [pushGroup]
  | cons g rest ih =>
    obtain ⟨k', xs⟩ := g
    rw [pushGroup]
    split
    · simp only [List.map_cons, List.sum_cons, List.length_append, List.length_singleton]
      omega
    · simp only [List.map_cons, List.sum_cons]
      omega

theorem sum_set_lt {α : Type} {f : α → Nat} {l : List α} {i : Nat} {a a' : α}
    (hi : l[i]? = some a) (h : f a' < f a) : ((l.set i a').map f).sum < (l.map f).sum := by
  induction l generalizing i with
  | nil => cases hi
  | cons b rest ih =>
    cases i with
    | zero =>
      cases hi
      simp only [List.set_cons_zero, List.map_cons, List.sum_cons]
      omega
    | succ i =>
      have hRest := ih (i := i) hi
      simp only [List.set_cons_succ, List.map_cons, List.sum_cons]
      omega

/-- Every step leaves less to do. -/
theorem ReturnCall.Step.left_lt {tid : Tid} {s : Shared} {r r' : ReturnCall} {op : Op}
    (h : ReturnCall.Step tid s r op r') : r'.left < r.left := by
  cases h with
  | @group l todo x cons dons _ =>
    have hPush := sum_pushGroup_le (s.alloc x).consumerVm x cons
    simp only [ReturnCall.left, List.length_cons]
    omega
  | @donorThere l todo x cons dons d _ =>
    have hPush := sum_pushGroup_le d x dons
    simp only [ReturnCall.left]
    omega
  | @organized l cons dons =>
    have hCalls : ((cons.map fun g =>
        (⟨g.1, g.2, dons.flatMap Prod.snd, .enter⟩ : ReleaseCall)).map ReleaseCall.left).sum ≤
          (cons.map fun g => g.2.length + 7).sum := by
      rw [List.map_map]
      exact List.sum_le_sum fun g _ => Nat.add_le_add_left (by decide) _
    simp only [ReturnCall.left]
    omega
  | release hi hStep =>
    have hLt := sum_set_lt hi hStep.left_lt
    simp only [ReturnCall.left]
    omega
  | @released l calls dons _ =>
    have hCalls : ((dons.map fun g => (⟨g.1, g.2, .send⟩ : GiveBack)).map GiveBack.left).sum ≤
        (dons.map fun g => g.2.length + 7).sum := by
      rw [List.map_map]
      exact List.sum_le_sum fun g _ => Nat.add_le_add_left (by decide) _
    simp only [ReturnCall.left]
    omega
  | giveBack hi hStep =>
    have hLt := sum_set_lt hi hStep.left_lt
    simp only [ReturnCall.left]
    omega
  | _ =>
    simp only [ReturnCall.left, List.length_cons]
    omega

section Progress

variable {s t : Shared} {allocs : List AllocId} {r : ReturnCall}

/-- The call touches nothing beside its allocations, their areas and their donors' books. -/
theorem ReturnInv.aside (h : ReturnInv s allocs t r) : Aside s t := by
  obtain ⟨l, pc⟩ := r
  cases pc with
  | organize todo cons dons =>
    obtain ⟨pre, -, hOrg, -⟩ := h
    exact hOrg.aside
  | take x todo cons dons =>
    obtain ⟨pre, -, hOrg, -⟩ := h
    exact hOrg.aside
  | check x d todo cons dons =>
    obtain ⟨pre, -, hOrg, -⟩ := h
    exact hOrg.aside
  | release calls dons =>
    obtain ⟨u, given, hOrg, hRel, -⟩ := h
    exact hOrg.aside.trans hRel.aside
  | giveBack calls =>
    obtain ⟨u, v, given, dons, hOrg, hRel, hGive, -⟩ := h
    exact (hOrg.aside.trans hRel.aside).trans hGive.aside
  | done =>
    obtain ⟨u, v, given, dons, calls, hOrg, hRel, hGive, -⟩ := h
    exact (hOrg.aside.trans hRel.aside).trans hGive.aside

/-- A call that has not returned can go on. -/
theorem ReturnInv.moves (h : ReturnInv s allocs t r) (hReady : Returnables s allocs) (tid : Tid)
    (hPc : r.pc ≠ .done) : ∃ op r', ReturnCall.Moves tid t r op r' := by
  have hDonors : ∀ v, t.donorLock v = none := by
    rw [h.aside.donorLock]
    exact hReady.donorsFree
  obtain ⟨l, pc⟩ := r
  cases pc with
  | organize todo cons dons =>
    cases todo with
    | nil => exact ⟨_, _, ⟨.go, rfl⟩, fun _ _ _ => Op.noConfusion⟩
    | cons x todo => exact ⟨_, _, ⟨.go, rfl⟩, fun _ _ _ => Op.noConfusion⟩
  | take x todo cons dons =>
    cases hTake : (t.alloc x).abandonOrTakeDonor.1 with
    | none =>
      refine ⟨.abandon x, ⟨l, .organize todo cons dons⟩, ⟨.go, ?_⟩, fun _ _ _ => Op.noConfusion⟩
      simp only [ReturnCall.next, hTake]
    | some d =>
      refine ⟨.abandon x, ⟨l, .check x d todo cons dons⟩, ⟨.go, ?_⟩, fun _ _ _ => Op.noConfusion⟩
      simp only [ReturnCall.next, hTake]
  | check x d todo cons dons => exact ⟨_, _, ⟨.go, rfl⟩, fun _ _ _ => Op.noConfusion⟩
  | release calls dons =>
    obtain ⟨u, given, hOrg, hRel, hCons, -⟩ := h
    by_cases hAll : ∀ c ∈ calls, c.pc = .done
    · have hDone : calls.all ReleaseCall.isDone = true :=
        List.all_eq_true.mpr fun c hc => decide_eq_true (hAll c hc)
      exact ⟨.nop, _, ⟨.go, if_pos hDone⟩, fun _ _ _ => Op.noConfusion⟩
    · push Not at hAll
      obtain ⟨c, hc, hNot⟩ := hAll
      obtain ⟨i, hi⟩ := List.getElem?_of_mem hc
      have hFree := hRel.unlocked hCons.keys hi
      obtain ⟨ch, op, c', hNext⟩ := ReleaseCall.moves tid hFree hNot
      refine ⟨op, ⟨l, .release (calls.set i c') dons⟩, ⟨.sub i ch, ?_⟩, ?_⟩
      · simp only [ReturnCall.next, stepNth, hi, hNext]
      · rintro d n ids rfl
        cases (ReleaseCall.step_of_next hNext).ofRelease
  | giveBack calls =>
    by_cases hAll : ∀ g ∈ calls, g.pc = .done
    · have hDone : calls.all GiveBack.isDone = true :=
        List.all_eq_true.mpr fun g hg => decide_eq_true (hAll g hg)
      exact ⟨.nop, _, ⟨.go, if_pos hDone⟩, fun _ _ _ => Op.noConfusion⟩
    · push Not at hAll
      obtain ⟨g, hg, hNot⟩ := hAll
      obtain ⟨i, hi⟩ := List.getElem?_of_mem hg
      obtain ⟨op, g', hNext, hOk⟩ := GiveBack.moves (hDonors _) hNot
      refine ⟨op, ⟨l, .giveBack (calls.set i g')⟩, ⟨.sub i (.outcome true), ?_⟩, hOk⟩
      simp only [ReturnCall.next, stepNth, hi, hNext]
  | done => exact absurd rfl hPc

end Progress

end EphMemory.Orchestrator
