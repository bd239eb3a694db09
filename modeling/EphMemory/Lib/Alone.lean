import EphMemory.Lib.Pool

/-!
# A task that works alone

While no other task moves, the steps of one task are a function of the
environment's choices.

* `alone` — the state and the task after a list of choices;
* `alone_append` — one stretch after another.

When the environment acts too, between the steps of the task, there are many
runs:

* `Runs` — all of them, with the number of steps the task made;
* `Runs.invariant` — what steps and environment keep holds in every one;
* `Runs.mono`, `Runs.of_alone` — runs with less of both;
* `Runs.bounded` — a measure that each step lowers bounds their number.
-/

namespace EphMemory.Lib

variable {σ τ ω χ : Type}

/-- The steps of one task at the environment's choices, if all of them are
enabled. -/
def alone (exec : ω → σ → σ) (next : σ → τ → χ → Option (ω × τ)) :
    List χ → σ × τ → Option (σ × τ)
  | [], p => some p
  | ch :: chs, p =>
    match next p.1 p.2 ch with
    | none => none
    | some (op, t') => alone exec next chs (exec op p.1, t')

variable {exec : ω → σ → σ} {next : σ → τ → χ → Option (ω × τ)}

theorem alone_append (chs chs' : List χ) (p : σ × τ) :
    alone exec next (chs ++ chs') p =
      (alone exec next chs p).bind fun q => alone exec next chs' q := by
  induction chs generalizing p with
  | nil => rfl
  | cons ch rest ih =>
    simp only [List.cons_append, alone]
    split
    · rfl
    · exact ih _

theorem alone_cons {ch : χ} {chs : List χ} {s : σ} {t t' : τ} {op : ω}
    (h : next s t ch = some (op, t')) :
    alone exec next (ch :: chs) (s, t) = alone exec next chs (exec op s, t') := by
  rw [alone, h]

-- ---------------------------------------------------------------------------
-- With an environment
-- ---------------------------------------------------------------------------

/-- What a task and its environment reach from `p`. The task moves by `step`,
the environment performs the operations `other` admits; `n` counts the steps
of the task. -/
inductive Runs (exec : ω → σ → σ) (step : σ → τ → ω → τ → Prop) (other : σ → τ → ω → Prop)
    (p : σ × τ) : Nat → σ × τ → Prop
  | refl : Runs exec step other p 0 p
  | own {n : Nat} {s : σ} {t t' : τ} {op : ω} :
      Runs exec step other p n (s, t) → step s t op t' →
      Runs exec step other p (n + 1) (exec op s, t')
  | env {n : Nat} {s : σ} {t : τ} {op : ω} :
      Runs exec step other p n (s, t) → other s t op →
      Runs exec step other p n (exec op s, t)

namespace Runs

variable {step : σ → τ → ω → τ → Prop} {other : σ → τ → ω → Prop} {p q : σ × τ} {n : Nat}

/-- **The run rule.** What the task's steps and those of the others keep holds
along the run. -/
theorem invariant {I : σ → τ → Prop}
    (hStep : ∀ {s t op t'}, I s t → step s t op t' → I (exec op s) t')
    (hOther : ∀ {s t op}, I s t → other s t op → I (exec op s) t)
    (h : Runs exec step other p n q) (hInit : I p.1 p.2) : I q.1 q.2 := by
  induction h with
  | refl => exact hInit
  | own _ hs ih => exact hStep ih hs
  | env _ ho ih => exact hOther ih ho

/-- The runs of fewer steps and a quieter environment. -/
theorem mono {step' : σ → τ → ω → τ → Prop} {other' : σ → τ → ω → Prop}
    (hStep : ∀ {s t op t'}, step s t op t' → step' s t op t')
    (hOther : ∀ {s t op}, other s t op → other' s t op) (h : Runs exec step other p n q) :
    Runs exec step' other' p n q := by
  induction h with
  | refl => exact .refl
  | own _ hs ih => exact .own ih (hStep hs)
  | env _ ho ih => exact .env ih (hOther ho)

/-- The steps at given choices are a run, if nobody else moves. -/
theorem of_alone {chs : List χ} (h : alone exec next chs p = some q) :
    Runs exec (fun s t op t' => ∃ ch, next s t ch = some (op, t')) other p chs.length q := by
  induction chs using List.reverseRecOn generalizing q with
  | nil =>
    cases h
    exact .refl
  | append_singleton chs ch ih =>
    rw [alone_append] at h
    obtain ⟨⟨s, t⟩, hFirst, hLast⟩ := Option.bind_eq_some_iff.mp h
    rw [alone] at hLast
    split at hLast
    · cases hLast
    · rename_i op t' hNext
      cases hLast
      rw [List.length_append]
      exact .own (ih hFirst) ⟨ch, hNext⟩

/-- The task makes no more steps than the measure of its start. -/
theorem bounded {I : σ → τ → Prop} {m : σ → τ → Nat}
    (hI : ∀ {n q}, Runs exec step other p n q → I q.1 q.2)
    (hStep : ∀ {s t op t'}, I s t → step s t op t' → m (exec op s) t' < m s t)
    (hOther : ∀ {s t op}, I s t → other s t op → m (exec op s) t ≤ m s t)
    (h : Runs exec step other p n q) : n + m q.1 q.2 ≤ m p.1 p.2 := by
  induction h with
  | refl => exact Nat.le_of_eq (Nat.zero_add _)
  | @own n s t t' op hRun hs ih =>
    have hLt : m (exec op s) t' < m s t := hStep (hI hRun) hs
    simp only at ih ⊢
    omega
  | @env n s t op hRun ho ih =>
    have hLe : m (exec op s) t ≤ m s t := hOther (hI hRun) ho
    simp only at ih ⊢
    omega

end Runs

end EphMemory.Lib
