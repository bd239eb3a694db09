import EphMemory.Lib.Count
import EphMemory.Lib.Drain

/-!
# Flags that a task holds

A flag of the shared state that is up exactly while one task holds it: a taken
mutex, the end of a channel that a thread owns.

* `Held` — the flag and its holders balance;
* `Held.up`, `Held.unique`, `Held.holder` — what that gives;
* `Passes` — how a step may change flag and holder, `Held.move` that a move
  made of such steps keeps the balance.
-/

namespace EphMemory.Lib

namespace Machine

variable {σ τ ω χ : Type} {M : Machine σ τ ω χ} {f : σ → Prop} {holds : τ → Prop}
  {c d : Config σ τ} {op : ω}

/-- As many tasks hold the flag as it is up: none or one. -/
def Held (f : σ → Prop) (holds : τ → Prop) (c : Config σ τ) : Prop :=
  total (fun s => -ind (f s)) (fun t => ind (holds t)) c = 0

/-- Counted together, the holders are one or none. -/
theorem Held.weigh_eq (h : Held f holds c) :
    weigh (fun t => ind (holds t)) c.tasks = ind (f c.shared) := by
  have hSum : -ind (f c.shared) + weigh (fun t => ind (holds t)) c.tasks = 0 := h
  omega

/-- While a task holds the flag, it is up. -/
theorem Held.up (h : Held f holds c) {i : Nat} {t : τ} (ht : c.tasks[i]? = some t)
    (hHolds : holds t) : f c.shared := by
  have hLe := le_weigh (w := fun t => ind (holds t)) (fun t => ind_nonneg _) ht
  rw [h.weigh_eq, ind_true hHolds] at hLe
  by_contra hDown
  rw [ind_false hDown] at hLe
  omega

/-- Two tasks that hold the flag are the same task. -/
theorem Held.unique (h : Held f holds c) {i j : Nat} {t u : τ} (ht : c.tasks[i]? = some t)
    (hu : c.tasks[j]? = some u) (hHolds : holds t) (hHolds' : holds u) : i = j := by
  by_contra hij
  have hTwo := add_le_weigh (w := fun t => ind (holds t)) (fun t => ind_nonneg _) hij ht hu
  rw [h.weigh_eq, ind_true hHolds, ind_true hHolds'] at hTwo
  have hOne := ind_le_one (f c.shared)
  omega

/-- A flag that is up has its holder. -/
theorem Held.holder (h : Held f holds c) (hUp : f c.shared) : ∃ t ∈ c.tasks, holds t := by
  have hPos : 0 < weigh (fun t => ind (holds t)) c.tasks := by
    rw [h.weigh_eq, ind_true hUp]
    exact Int.one_pos
  obtain ⟨t, ht, hOne⟩ := exists_of_weigh_pos hPos
  refine ⟨t, ht, ?_⟩
  by_contra hNot
  rw [ind_false hNot] at hOne
  exact absurd hOne (Int.lt_irrefl 0)

/-- Flag `f` and holder `p` before a step, `f'` and `p'` after it: both are left
as they are, a flag that is down is taken up, or the holder takes it down. -/
def Passes (f f' p p' : Prop) : Prop :=
  ((f' ↔ f) ∧ (p' ↔ p)) ∨ (¬ f ∧ f' ∧ ¬ p ∧ p') ∨ (p ∧ ¬ f' ∧ ¬ p')

/-- Neither the flag nor the holder has changed. -/
theorem Passes.same {f f' p p' : Prop} (hf : f' ↔ f) (hp : p' ↔ p) : Passes f f' p p' :=
  Or.inl ⟨hf, hp⟩

/-- The task takes up a flag that is down. -/
theorem Passes.takes {f f' p p' : Prop} (hf : ¬ f) (hf' : f') (hp : ¬ p) (hp' : p') :
    Passes f f' p p' := Or.inr (Or.inl ⟨hf, hf', hp, hp'⟩)

/-- The holder takes the flag down. -/
theorem Passes.drops {f f' p p' : Prop} (hp : p) (hf' : ¬ f') (hp' : ¬ p') : Passes f f' p p' :=
  Or.inr (Or.inr ⟨hp, hf', hp'⟩)

/-- However the flag passes, it and its holder change together. -/
theorem Passes.ind_eq {f f' p p' : Prop} (h : Passes f f' p p') (hUp : p → f) :
    -ind f' + ind p' = -ind f + ind p := by
  rcases h with ⟨hf, hp⟩ | ⟨hf, hf', hp, hp'⟩ | ⟨hp, hf', hp'⟩
  · rw [propext hf, propext hp]
  · rw [ind_true hf', ind_true hp', ind_false hf, ind_false hp]
    rfl
  · rw [ind_false hf', ind_false hp', ind_true (hUp hp), ind_true hp]
    rfl

/-- **The step rule.** A flag stays held when every step of a task passes it and
the outside either leaves it alone or brings its holder. -/
theorem Held.move (h : Held f holds c) (hm : M.Move c op d)
    (hTask : ∀ i t ch t' started, c.tasks[i]? = some t →
      M.next i c.shared t ch = some (op, t', started) →
      Passes (f c.shared) (f (M.exec op c.shared)) (holds t) (holds t') ∧
        ∀ u ∈ started, ¬ holds u)
    (hOutside : ∀ started, M.outside c.shared op = some started →
      ((f (M.exec op c.shared) ↔ f c.shared) ∧ ∀ u ∈ started, ¬ holds u) ∨
        (¬ f c.shared ∧ f (M.exec op c.shared) ∧
          weigh (fun t => ind (holds t)) started = 1)) :
    Held f holds d := by
  have hNone : ∀ started : List τ, (∀ u ∈ started, ¬ holds u) →
      weigh (fun t => ind (holds t)) started = 0 :=
    fun started hs => weigh_eq_zero fun u hu => ind_false (hs u hu)
  refine Eq.trans (hm.total_eq (fun i t ch t' started ht hn => ?_) fun started hs => ?_) h
  · obtain ⟨hPasses, hStarted⟩ := hTask i t ch t' started ht hn
    have hEq := hPasses.ind_eq (h.up ht)
    rw [hNone started hStarted]
    omega
  · rcases hOutside started hs with ⟨hSame, hStarted⟩ | ⟨hDown, hUp, hOne⟩
    · rw [hNone started hStarted, propext hSame]
      exact Int.add_zero _
    · rw [hOne, ind_true hUp, ind_false hDown]
      rfl

end Machine

end EphMemory.Lib
