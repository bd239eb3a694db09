import EphMemory.Lib.Pool

/-!
# Obligations that pass from task to task

Something that is left to do is somebody's: there is a task that has yet to do
it. A move keeps it so when the tasks that do not move stay in charge, and the
one that moves stays in charge, is done with it, or was not in charge.

* `Minded` — some task has the obligation;
* `Minded.move` — what a move makes of it;
* `minded_of_own` — a move that makes the moving task responsible.
-/

namespace EphMemory.Lib

namespace Machine

variable {σ τ ω χ : Type} {M : Machine σ τ ω χ} {c d : Config σ τ} {op : ω}

/-- Some task has the obligation `J`. -/
def Minded (J : σ → τ → Prop) (c : Config σ τ) : Prop := ∃ t ∈ c.tasks, J c.shared t

/-- After a move somebody is still in charge, or it is done. -/
theorem Minded.move {J K : σ → τ → Prop} {P : Prop} (h : Minded J c) (hm : M.Move c op d)
    (hOwn : ∀ (i : Nat) t ch t' started, c.tasks[i]? = some t →
      M.next i c.shared t ch = some (op, t', started) → J c.shared t →
      K (M.exec op c.shared) t' ∨ P)
    (hStable : ∀ t ∈ c.tasks, J c.shared t → K (M.exec op c.shared) t) :
    Minded K d ∨ P := by
  obtain ⟨u, hu, hJ⟩ := h
  obtain ⟨j, hj⟩ := List.mem_iff_getElem?.mp hu
  cases hm with
  | @task i t t' ch started ht hn =>
    by_cases hij : i = j
    · subst hij
      cases ht.symm.trans hj
      refine (hOwn i _ ch t' started ht hn hJ).imp_left fun hK => ⟨t', ?_, hK⟩
      exact List.mem_of_getElem? (getElem?_set_append_self ht)
    · exact Or.inl ⟨u, List.mem_of_getElem? (getElem?_set_append_ne hij hj), hStable u hu hJ⟩
  | outside hs => exact Or.inl ⟨u, List.mem_append_left _ hu, hStable u hu hJ⟩

/-- The task that moved looks after it. -/
theorem minded_of_own {J : σ → τ → Prop} {i : Nat} {t t' : τ} {started : List τ}
    (ht : c.tasks[i]? = some t) (hd : d.tasks = c.tasks.set i t' ++ started)
    (hJ : J d.shared t') : Minded J d := by
  refine ⟨t', ?_, hJ⟩
  rw [hd]
  exact List.mem_of_getElem? (getElem?_set_append_self ht)

end Machine

end EphMemory.Lib
