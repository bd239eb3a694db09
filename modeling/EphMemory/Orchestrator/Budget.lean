import EphMemory.Orchestrator.Steps

/-!
# Orchestrator — the budget of a request

A request never has more allocations at hand than it asked for: what
`reserve_memory` takes stays within the aligned size, and every later list is a
part of what was reserved.

* `RequestPc.Within` — the lists of a request, against its size;
* `live_within` — what is answered with is some of it.
-/

namespace EphMemory.Orchestrator

open EphMemory.Lib

/-- What the request has at hand fits into `size` bytes, a whole number of
chunks, and it answers with something. -/
def RequestPc.Within (size : Nat) : RequestPc → Prop
  | .start requested => requested = size
  | .reserve remaining rsvd => remaining + rsvd.length * granularity ≤ size
  | .allocate _ rsvd => rsvd.length * granularity ≤ size
  | .drop _ rsvd => rsvd.length * granularity ≤ size
  | .retain todo kept => (todo.length + kept.length) * granularity ≤ size
  | .add rsvd => rsvd.length * granularity ≤ size
  | .wait rsvd => rsvd.length * granularity ≤ size
  | .partition todo live _ => (todo.length + live.length) * granularity ≤ size
  | .returnDead _ live => live.length * granularity ≤ size
  | .respond _ live => live ≠ [] ∧ live.length * granularity ≤ size
  | _ => True

theorem within_afterDead {live : List AllocId} {size : Nat}
    (h : live.length * granularity ≤ size) : (Request.afterDead live).Within size := by
  unfold Request.afterDead
  split
  · trivial
  · rename_i hne
    exact ⟨hne, h⟩

/-- A request reserves no more than its size and answers with what it has reserved. -/
theorem Request.Step.within {tid : Tid} {s : Shared} {q q' : Request} {op : Op} {size : Nat}
    (h : Request.Step tid s q op q') (hAligned : checkedNextMultipleOf size = some size)
    (hq : q.pc.Within size) : q'.pc.Within size := by
  cases h with
  | rounded hSize =>
    cases (show _ = size from hq)
    cases hSize.symm.trans hAligned
    show size + 0 * granularity ≤ size
    omega
  | @reserve c remaining rsvd _ _ =>
    have hLe := length_reserveOffsets_le ((s.vm c).consumerSize.getD 0) (s.allocatedAreas c)
      remaining
    have hIds : (s.newIds c remaining).length = (s.newOffsets c remaining).length :=
      List.length_range' ..
    show remaining - (s.newOffsets c remaining).length * granularity +
      (rsvd ++ s.newIds c remaining).length * granularity ≤ size
    rw [List.length_append, hIds, Nat.add_mul]
    have hSum : remaining + rsvd.length * granularity ≤ size := hq
    have hNew : (s.newOffsets c remaining).length * granularity ≤ remaining := hLe
    omega
  | @reserved c remaining rsvd => exact le_trans (Nat.le_add_left _ _) hq
  | dropped _ => exact hq
  | @keep c todo kept x _ _ =>
    show (todo.length + (kept ++ [x]).length) * granularity ≤ size
    rw [List.length_append, List.length_singleton, ← Nat.add_assoc, Nat.add_right_comm]
    exact hq
  | @skip c todo kept x _ _ =>
    exact le_trans (Nat.mul_le_mul_right _ (Nat.add_le_add_right (Nat.le_succ _) _)) hq
  | @skipOther c todo kept x _ =>
    exact le_trans (Nat.mul_le_mul_right _ (Nat.add_le_add_right (Nat.le_succ _) _)) hq
  | @kept c kept =>
    show kept.length * granularity ≤ size
    have hSum : (0 + kept.length) * granularity ≤ size := hq
    rw [Nat.zero_add] at hSum
    exact hSum
  | @live c todo live dead x _ =>
    show (todo.length + (live ++ [x]).length) * granularity ≤ size
    rw [List.length_append, List.length_singleton, ← Nat.add_assoc, Nat.add_right_comm]
    exact hq
  | @dead c todo live dead x _ =>
    exact le_trans (Nat.mul_le_mul_right _ (Nat.add_le_add_right (Nat.le_succ _) _)) hq
  | @allLive c live =>
    have hSum : (0 + live.length) * granularity ≤ size := hq
    rw [Nat.zero_add] at hSum
    exact within_afterDead hSum
  | @someDead c live dead =>
    have hSum : (0 + live.length) * granularity ≤ size := hq
    rw [Nat.zero_add] at hSum
    exact hSum
  | returnedDead _ => exact within_afterDead hq
  | allocate _ => exact hq
  | allocated _ => exact hq
  | drop _ => exact hq
  | added => exact hq
  | returnDead _ => exact hq
  | respond => exact hq
  | @waited c rsvd => exact hq
  | _ => trivial

/-- A request that answers has something to answer with, and not more than it
was asked for. -/
theorem live_within {s s' : System} {i : Nat} {c c' : VmId} {size : Nat}
    {todo live : List AllocId} (h : orchestrator.Steps (fun _ _ => True) s s')
    (hAligned : checkedNextMultipleOf size = some size)
    (hStart : s.tasks[i]? = some (.request ⟨c, .start size⟩))
    (hLive : s'.tasks[i]? = some (.request ⟨c', .respond todo live⟩)) :
    c' = c ∧ live ≠ [] ∧ live.length * granularity ≤ size := by
  obtain ⟨t, ht, q, rfl, hq, hWithin⟩ := h.task_invariant
    (P := fun t => ∃ q, t = .request q ∧ q.consumer = c ∧ q.pc.Within size)
    (fun s t ch op t' started hP hn => by
      obtain ⟨q, rfl, hq, hWithin⟩ := hP
      have hStep : Task.Step i s (.request q) op t' started := Task.step_of_next hn
      cases hStep with
      | request hr =>
        refine ⟨_, rfl, ?_, hr.within hAligned hWithin⟩
        rw [← hq]
        cases hr <;> rfl)
    hStart ⟨_, rfl, rfl, rfl⟩
  cases ht.symm.trans hLive
  exact ⟨hq, hWithin⟩

end EphMemory.Orchestrator
