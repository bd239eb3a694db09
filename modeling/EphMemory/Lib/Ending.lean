import EphMemory.Lib.Pool

/-!
# Runs that end

A measure that the moves of a task lower bounds how often the task moves, in
whatever runs the others make. The measure may depend on where the run ends:
what holds there (of something that only grows) holds all along.

* `Label.isOf` — the label is a move of the task;
* `countP_lt_countP`, `sum_set` — for measures that count and that add up;
* `Machine.own_moves_le` — how often one task moves;
* `Machine.moves_le` — how long a run is whose every move counts.
-/

namespace EphMemory.Lib

variable {σ τ ω χ : Type}

def Label.isOf (i : Nat) : Label ω χ → Bool
  | .task j _ => decide (j = i)
  | .outside _ => false

/-- A stronger test that one element fails counts fewer. -/
theorem countP_lt_countP {α : Type} {p q : α → Bool} {l : List α} (h : ∀ a ∈ l, p a → q a) {a : α}
    (ha : a ∈ l) (hp : p a = false) (hq : q a = true) : l.countP p < l.countP q := by
  obtain ⟨l₁, l₂, rfl⟩ := List.append_of_mem ha
  have h₁ : l₁.countP p ≤ l₁.countP q :=
    List.countP_mono_left fun b hb => h b (List.mem_append_left _ hb)
  have h₂ : l₂.countP p ≤ l₂.countP q :=
    List.countP_mono_left fun b hb => h b (List.mem_append_right _ (List.mem_cons_of_mem a hb))
  simp only [List.countP_append, List.countP_cons, hp, hq, Bool.false_eq_true, if_false, if_true]
  omega

theorem sum_set {α : Type} {f : α → Nat} {l : List α} {i : Nat} {a : α} (h : l[i]? = some a)
    (a' : α) : ((l.set i a').map f).sum + f a = (l.map f).sum + f a' := by
  induction l generalizing i with
  | nil => cases h
  | cons b rest ih =>
    cases i with
    | zero =>
      cases h
      simp only [List.set_cons_zero, List.map_cons, List.sum_cons]
      omega
    | succ i =>
      have hRest := ih (i := i) h
      simp only [List.set_cons_succ, List.map_cons, List.sum_cons]
      omega

namespace Machine

variable {M : Machine σ τ ω χ} {c d : Config σ τ} {ls : List (Label ω χ)}

/-- What a step hands back to the state before it, a run does. -/
theorem Steps.back {Q : Config σ τ → Prop} (hBack : ∀ c op d, M.Move c op d → Q d → Q c)
    {allow : Config σ τ → ω → Prop} (h : M.Steps allow c d) (hQ : Q d) : Q c := by
  induction h with
  | refl => exact hQ
  | tail _ hm _ ih => exact ih (hBack _ _ _ hm hQ)

/-- A task of kind `P` moves no more often than its measure says. `I` is kept by
every move, `Q` holds at the end and therefore before. -/
theorem own_moves_le {I Q : Config σ τ → Prop} {P : τ → Prop} {f : τ → Nat} {i : Nat}
    (hInv : ∀ c op d, I c → M.Move c op d → I d) (hBack : ∀ c op d, M.Move c op d → Q d → Q c)
    (hStep : ∀ c t ch op t' started, I c → Q c → c.tasks[i]? = some t →
      M.next i c.shared t ch = some (op, t', started) → P t → P t' ∧ f t' < f t)
    (hRun : M.run c ls = some d) (hI : I c) (hQ : Q d) {t : τ} (ht : c.tasks[i]? = some t)
    (hP : P t) :
    ls.countP (Label.isOf i) ≤ f t := by
  induction ls generalizing c t with
  | nil => exact Nat.zero_le _
  | cons l rest ih =>
    rw [run] at hRun
    split at hRun
    · cases hRun
    rename_i c' hFire
    obtain ⟨op, hm⟩ := move_of_fire hFire
    have hQ' : Q c' := (steps_of_run hRun).back hBack hQ
    have hRest : ∀ {u}, c'.tasks[i]? = some u → P u → rest.countP (Label.isOf i) ≤ f u :=
      fun hu hPu => ih hRun (hInv c op c' hI hm) hu hPu
    rw [List.countP_cons]
    cases l with
    | task j ch =>
      obtain ⟨u, op, u', started, hu, hn, -, rfl⟩ := fire_task hFire
      by_cases hji : j = i
      · subst hji
        cases ht.symm.trans hu
        obtain ⟨hP', hLt⟩ := hStep c t ch op u' started hI (hBack _ _ _ hm hQ') ht hn hP
        have hLe := hRest (getElem?_set_append_self ht) hP'
        simp only [Label.isOf, decide_true, if_true]
        omega
      · have hLe := hRest (getElem?_set_append_ne hji ht) hP
        simp only [Label.isOf, decide_eq_true_eq, hji, if_false]
        exact hLe
    | outside op =>
      obtain ⟨started, -, rfl⟩ := fire_outside hFire
      have hLt := (List.getElem?_eq_some_iff.mp ht).1
      have hLe := hRest ((List.getElem?_append_left hLt).trans ht) hP
      simp only [Label.isOf, Bool.false_eq_true, if_false]
      exact hLe

/-- A run whose every move lowers a measure is no longer than the measure. -/
theorem moves_le {I : Config σ τ → Prop} {P : Label ω χ → Prop} {m : Config σ τ → Nat}
    (hStep : ∀ c l d, I c → P l → M.fire c l = some d → I d ∧ m d < m c)
    (hRun : M.run c ls = some d) (hAll : ∀ l ∈ ls, P l) (hI : I c) :
    I d ∧ ls.length + m d ≤ m c := by
  induction ls generalizing c with
  | nil =>
    cases hRun
    exact ⟨hI, by simp⟩
  | cons l rest ih =>
    rw [run] at hRun
    split at hRun
    · cases hRun
    rename_i c' hFire
    obtain ⟨hI', hLt⟩ := hStep c l c' hI (hAll l (List.mem_cons_self ..)) hFire
    obtain ⟨hEnd, hLe⟩ := ih hRun (fun k hk => hAll k (List.mem_cons_of_mem l hk)) hI'
    rw [List.length_cons]
    exact ⟨hEnd, by omega⟩

end Machine

end EphMemory.Lib
