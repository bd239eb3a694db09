import EphMemory.Lib.Pool

/-!
# Running a measure down

A machine whose states, as long as a measure is positive, always have a move
that lowers it can be brought to measure zero from wherever it is: this is how
a pool of tasks is shown not to get stuck.

* `Machine.drains` — the schedule, no longer than the measure;
* `fire_of_next`, `opOf_of_next` — an enabled move, as a label;
* `exists_of_weigh_pos`, `exists_of_sum_pos` — a positive total is some task's.
-/

namespace EphMemory.Lib

variable {σ τ ω χ : Type}

namespace Machine

variable {M : Machine σ τ ω χ}

/-- A task that has a step can be scheduled. -/
theorem fire_of_next {c : Config σ τ} {i : Nat} {t t' : τ} {ch : χ} {op : ω} {started : List τ}
    (ht : c.tasks[i]? = some t) (hn : M.next i c.shared t ch = some (op, t', started)) :
    M.fire c (.task i ch) = some ⟨M.exec op c.shared, c.tasks.set i t' ++ started⟩ := by
  simp only [fire, ht, hn]

/-- The schedule of a task performs the operation of its step. -/
theorem opOf_of_next {c : Config σ τ} {i : Nat} {t t' : τ} {ch : χ} {op : ω} {started : List τ}
    (ht : c.tasks[i]? = some t) (hn : M.next i c.shared t ch = some (op, t', started)) :
    M.opOf c (.task i ch) = some op := by
  simp only [opOf, ht, hn, Option.map_some]

/-- As long as the measure is positive some passing move lowers it: then a
schedule of passing moves, no longer than the measure, brings it to zero. -/
theorem drains {ok : Config σ τ → ω → Bool} {I : Config σ τ → Prop} {m : Config σ τ → Nat}
    (hStep : ∀ c, I c → 0 < m c → ∃ l op d,
      M.opOf c l = some op ∧ ok c op = true ∧ M.fire c l = some d ∧ I d ∧ m d < m c)
    {c : Config σ τ} (hInit : I c) :
    ∃ ls d, M.runIf ok c ls = some d ∧ ls.length ≤ m c ∧ I d ∧ m d = 0 := by
  generalize hn : m c = n
  induction n using Nat.strong_induction_on generalizing c with
  | _ n ih =>
    subst hn
    rcases Nat.eq_zero_or_pos (m c) with hZero | hPos
    · exact ⟨[], c, rfl, Nat.zero_le _, hInit, hZero⟩
    · obtain ⟨l, op, d, hOp, hOk, hFire, hI, hLt⟩ := hStep c hInit hPos
      obtain ⟨ls, e, hRun, hLen, hE, hDone⟩ := ih (m d) hLt hI rfl
      refine ⟨l :: ls, e, ?_, ?_, hE, hDone⟩
      · have hAny : (M.opOf c l).any (ok c) = true := by
          rw [hOp]
          exact hOk
        rw [runIf, if_pos hAny, hFire]
        exact hRun
      · rw [List.length_cons]
        omega

theorem exists_of_weigh_pos {w : τ → Int} {ts : List τ} (h : 0 < weigh w ts) :
    ∃ t ∈ ts, 0 < w t := by
  by_contra hNone
  push Not at hNone
  have hLe : weigh w ts ≤ 0 := by
    clear h
    induction ts with
    | nil => exact Int.le_refl 0
    | cons t rest ih =>
      have hHead := hNone t (List.mem_cons_self ..)
      have hTail := ih fun u hu => hNone u (List.mem_cons_of_mem _ hu)
      rw [weigh_cons]
      omega
  omega

end Machine

theorem exists_of_sum_pos {α : Type} {f : α → Nat} {l : List α} (h : 0 < (l.map f).sum) :
    ∃ a ∈ l, 0 < f a := by
  by_contra hNone
  push Not at hNone
  have hZero : (l.map f).sum = 0 := by
    refine List.sum_eq_zero fun n hn => ?_
    obtain ⟨a, ha, rfl⟩ := List.mem_map.mp hn
    exact Nat.le_zero.mp (hNone a ha)
  omega

end EphMemory.Lib
