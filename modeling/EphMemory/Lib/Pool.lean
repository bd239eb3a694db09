import Mathlib

/-!
# Pools of tasks over a shared state

A pool is a shared state and a list of tasks. A task moves by one operation
on the shared state at a time: `Machine.next` reads the shared state and
names the operation, the task's new local state and the tasks it starts;
`Machine.exec` performs the operation. The environment moves too
(`Machine.outside`), and may start tasks. Any task may move at any moment, so
the runs of a machine are all interleavings of its tasks' operations.

The rules that carry an invariant over a run:

* `Steps.invariant` — what every move keeps holds in every state reached;
* `Move.forall_tasks` — the rely/guarantee rule: a property of each task and
  the shared state, kept by the task's own moves and stable under the
  operations of the others;
* `Steps.task_invariant` — a property of one task that its own moves keep;
* `Move.total_le` / `Move.total_eq` — conservation: a measure of the shared
  state plus the weights of all tasks never grows (or never changes) when no
  single move makes its own part of it grow (or change).
-/

namespace EphMemory.Lib

variable {σ τ ω χ : Type}

/-- A machine: what each task does next, and what an operation does. -/
structure Machine (σ τ ω χ : Type) where
  /-- The next move of task number `i`, given the shared state, the task and
  the environment's choice: an operation, the new task, the tasks started. -/
  next : Nat → σ → τ → χ → Option (ω × τ × List τ)
  exec : ω → σ → σ
  /-- Operations of the environment, with the tasks they start. -/
  outside : σ → ω → Option (List τ)

structure Config (σ τ : Type) where
  shared : σ
  tasks : List τ

inductive Label (ω χ : Type) where
  | task (tid : Nat) (choice : χ)
  | outside (op : ω)

namespace Machine

variable (M : Machine σ τ ω χ)

/-- Perform one labelled move, if it is enabled. -/
def fire (c : Config σ τ) : Label ω χ → Option (Config σ τ)
  | .task i ch =>
    match c.tasks[i]? with
    | none => none
    | some t =>
      match M.next i c.shared t ch with
      | none => none
      | some (op, t', started) => some ⟨M.exec op c.shared, c.tasks.set i t' ++ started⟩
  | .outside op =>
    match M.outside c.shared op with
    | none => none
    | some started => some ⟨M.exec op c.shared, c.tasks ++ started⟩

def run (c : Config σ τ) : List (Label ω χ) → Option (Config σ τ)
  | [] => some c
  | l :: rest =>
    match M.fire c l with
    | none => none
    | some c' => run c' rest

/-- The operation of a labelled move, if it is enabled. -/
def opOf (c : Config σ τ) : Label ω χ → Option ω
  | .task i ch =>
    match c.tasks[i]? with
    | none => none
    | some t => (M.next i c.shared t ch).map Prod.fst
  | .outside op => some op

/-- Perform a schedule as long as every operation passes `ok`. -/
def runIf (ok : Config σ τ → ω → Bool) (c : Config σ τ) :
    List (Label ω χ) → Option (Config σ τ)
  | [] => some c
  | l :: rest =>
    if (M.opOf c l).any (ok c) then
      match M.fire c l with
      | none => none
      | some c' => runIf ok c' rest
    else none

/-- The moves of a machine, with the operation each performs. -/
inductive Move (c : Config σ τ) (op : ω) : Config σ τ → Prop
  | task {i : Nat} {t t' : τ} {ch : χ} {started : List τ} :
      c.tasks[i]? = some t → M.next i c.shared t ch = some (op, t', started) →
      Move c op ⟨M.exec op c.shared, c.tasks.set i t' ++ started⟩
  | outside {started : List τ} :
      M.outside c.shared op = some started →
      Move c op ⟨M.exec op c.shared, c.tasks ++ started⟩

/-- The runs of a machine in which every move meets `allow`, a condition on
the configuration before the move and the operation it performs. -/
inductive Steps (allow : Config σ τ → ω → Prop) (c : Config σ τ) : Config σ τ → Prop
  | refl : Steps allow c c
  | tail {d e : Config σ τ} {op : ω} :
      Steps allow c d → M.Move d op e → allow d op → Steps allow c e

variable {M}

/-- A move changes the shared state as its operation does. -/
theorem Move.shared_eq {c d : Config σ τ} {op : ω} (h : M.Move c op d) :
    d.shared = M.exec op c.shared := by
  cases h <;> rfl

/-- What it takes to schedule a task. -/
theorem fire_task {c d : Config σ τ} {i : Nat} {ch : χ} (h : M.fire c (.task i ch) = some d) :
    ∃ t op t' started, c.tasks[i]? = some t ∧ M.next i c.shared t ch = some (op, t', started) ∧
      M.opOf c (.task i ch) = some op ∧
      d = ⟨M.exec op c.shared, c.tasks.set i t' ++ started⟩ := by
  simp only [fire] at h
  split at h
  · cases h
  · rename_i t ht
    split at h
    · cases h
    · rename_i op t' started hn
      cases h
      exact ⟨t, op, t', started, ht, hn, by simp only [opOf, ht, hn, Option.map_some], rfl⟩

/-- What it takes to let the outside act. -/
theorem fire_outside {c d : Config σ τ} {op : ω} (h : M.fire c (.outside op) = some d) :
    ∃ started, M.outside c.shared op = some started ∧
      d = ⟨M.exec op c.shared, c.tasks ++ started⟩ := by
  simp only [fire] at h
  split at h
  · cases h
  · rename_i started hs
    cases h
    exact ⟨started, hs, rfl⟩

/-- Every label that can be fired is a move. -/
theorem move_of_fire {c d : Config σ τ} {l : Label ω χ} (h : M.fire c l = some d) :
    ∃ op, M.Move c op d := by
  cases l with
  | task i ch =>
    obtain ⟨t, op, t', started, ht, hn, -, rfl⟩ := fire_task h
    exact ⟨op, .task ht hn⟩
  | outside op =>
    obtain ⟨started, hs, rfl⟩ := fire_outside h
    exact ⟨op, .outside hs⟩

/-- A label that is fired is a move of the operation it names. -/
theorem move_of_opOf {c d : Config σ τ} {l : Label ω χ} {op : ω} (hop : M.opOf c l = some op)
    (h : M.fire c l = some d) : M.Move c op d := by
  cases l with
  | task i ch =>
    obtain ⟨t, op', t', started, ht, hn, hop', rfl⟩ := fire_task h
    cases Option.some.inj (hop.symm.trans hop')
    exact .task ht hn
  | outside op' =>
    cases hop
    obtain ⟨started, hs, rfl⟩ := fire_outside h
    exact .outside hs

/-- Every move is a labelled one. -/
theorem Move.label {c d : Config σ τ} {op : ω} (h : M.Move c op d) :
    ∃ l, M.opOf c l = some op ∧ M.fire c l = some d := by
  cases h with
  | @task i t t' ch started ht hn =>
    exact ⟨.task i ch, by simp [opOf, ht, hn], by simp [fire, ht, hn]⟩
  | outside hs => exact ⟨.outside op, rfl, by simp [fire, hs]⟩

theorem Steps.trans {allow : Config σ τ → ω → Prop} {c d e : Config σ τ}
    (h1 : M.Steps allow c d) (h2 : M.Steps allow d e) : M.Steps allow c e := by
  induction h2 with
  | refl => exact h1
  | tail _ hm ha ih => exact .tail ih hm ha

/-- Where a schedule leads. -/
def after (M : Machine σ τ ω χ) (c : Config σ τ) (ls : List (Label ω χ)) : Config σ τ :=
  (M.run c ls).getD c

theorem run_append (c : Config σ τ) (ls ls' : List (Label ω χ)) :
    M.run c (ls ++ ls') = (M.run c ls).bind fun d => M.run d ls' := by
  induction ls generalizing c with
  | nil => rfl
  | cons l rest ih =>
    simp only [List.cons_append, run]
    split
    · rfl
    · exact ih _

/-- The last move of an executed schedule. -/
theorem fire_after {c : Config σ τ} {ls : List (Label ω χ)} {l : Label ω χ}
    (h : (M.run c (ls ++ [l])).isSome = true) :
    M.fire (M.after c ls) l = some (M.after c (ls ++ [l])) := by
  unfold after
  rw [run_append] at h ⊢
  cases hd : M.run c ls with
  | none =>
    rw [hd] at h
    cases h
  | some d =>
    rw [hd, Option.bind_some, run] at h
    rw [Option.getD_some, Option.bind_some, run]
    cases hf : M.fire d l with
    | none =>
      rw [hf] at h
      cases h
    | some e => rfl

/-- An executed schedule is a run. -/
theorem steps_of_run {c d : Config σ τ} {ls : List (Label ω χ)} (h : M.run c ls = some d) :
    M.Steps (fun _ _ => True) c d := by
  induction ls generalizing c with
  | nil => cases h; exact .refl
  | cons l rest ih =>
    rw [run] at h
    split at h
    · cases h
    · rename_i c' hf
      obtain ⟨op, hm⟩ := move_of_fire hf
      exact Steps.trans (.tail .refl hm trivial) (ih h)

/-- An executed schedule whose every operation passed `ok` is a run of the
moves that do. -/
theorem steps_of_runIf {ok : Config σ τ → ω → Bool} {c d : Config σ τ}
    {ls : List (Label ω χ)} (h : M.runIf ok c ls = some d) :
    M.Steps (fun c op => ok c op = true) c d := by
  induction ls generalizing c with
  | nil => cases h; exact .refl
  | cons l rest ih =>
    rw [runIf] at h
    split at h
    · rename_i hAny
      obtain ⟨op, hop, hok⟩ := (Option.any_eq_true _ _).mp hAny
      split at h
      · cases h
      · rename_i c' hf
        exact Steps.trans (.tail .refl (move_of_opOf hop hf) hok) (ih h)
    · cases h

/-- Checking the steps changes nothing about the run. -/
theorem run_of_runIf {ok : Config σ τ → ω → Bool} {c d : Config σ τ}
    {ls : List (Label ω χ)} (h : M.runIf ok c ls = some d) : M.run c ls = some d := by
  induction ls generalizing c with
  | nil => exact h
  | cons l rest ih =>
    rw [runIf] at h
    rw [run]
    split at h
    · split at h
      · cases h
      · exact ih h
    · cases h

/-- A schedule that can be run is a run. -/
theorem steps_after {c : Config σ τ} {ls : List (Label ω χ)}
    (h : (M.run c ls).isSome = true) : M.Steps (fun _ _ => True) c (M.after c ls) := by
  obtain ⟨d, hd⟩ := Option.isSome_iff_exists.mp h
  unfold after
  rw [hd]
  exact steps_of_run hd

theorem Steps.mono {allow allow' : Config σ τ → ω → Prop} {c d : Config σ τ}
    (hle : ∀ c op, allow c op → allow' c op) (h : M.Steps allow c d) : M.Steps allow' c d := by
  induction h with
  | refl => exact .refl
  | tail _ hm ha ih => exact .tail ih hm (hle _ _ ha)

/-- A schedule that can be run with every step checked is a run that keeps to
the condition. -/
theorem steps_afterIf {allow : Config σ τ → ω → Prop} [∀ c op, Decidable (allow c op)]
    {c : Config σ τ} {ls : List (Label ω χ)}
    (h : (M.runIf (fun c op => decide (allow c op)) c ls).isSome = true) :
    M.Steps allow c (M.after c ls) := by
  obtain ⟨d, hd⟩ := Option.isSome_iff_exists.mp h
  unfold after
  rw [run_of_runIf hd]
  exact (steps_of_runIf hd).mono fun _ _ h => of_decide_eq_true h

/-- What every allowed move keeps holds in every state a run reaches. -/
theorem Steps.invariant {allow : Config σ τ → ω → Prop} {c d : Config σ τ}
    {I : Config σ τ → Prop}
    (hMove : ∀ c op d, I c → M.Move c op d → allow c op → I d)
    (h : M.Steps allow c d) (hInit : I c) : I d := by
  induction h with
  | refl => exact hInit
  | tail _ hm ha ih => exact hMove _ _ _ ih hm ha

-- ---------------------------------------------------------------------------
-- Rely and guarantee
-- ---------------------------------------------------------------------------

/-- A task after a move: the one that moved, another, or one that was started. -/
theorem getElem?_set_append {l started : List τ} {i j : Nat} {t' u : τ}
    (h : (l.set i t' ++ started)[j]? = some u) :
    (j = i ∧ u = t') ∨ l[j]? = some u ∨ u ∈ started := by
  rcases Nat.lt_or_ge j (l.set i t').length with hlt | hge
  · rw [List.getElem?_append_left hlt, List.getElem?_set] at h
    split at h
    · rename_i hij
      split at h
      · exact Or.inl ⟨hij.symm, (Option.some.inj h).symm⟩
      · cases h
    · exact Or.inr (Or.inl h)
  · rw [List.getElem?_append_right hge] at h
    exact Or.inr (Or.inr (List.mem_of_getElem? h))

/-- The task that moved. -/
theorem getElem?_set_append_self {l started : List τ} {i : Nat} {t t' : τ}
    (h : l[i]? = some t) : (l.set i t' ++ started)[i]? = some t' := by
  have hLt := (List.getElem?_eq_some_iff.mp h).1
  rw [List.getElem?_append_left (by rw [List.length_set]; exact hLt),
    List.getElem?_set_self hLt]

/-- The tasks that did not. -/
theorem getElem?_set_append_ne {l started : List τ} {i j : Nat} {t u : τ} (hne : i ≠ j)
    (h : l[j]? = some u) : (l.set i t ++ started)[j]? = some u := by
  have hLt := (List.getElem?_eq_some_iff.mp h).1
  rw [List.getElem?_append_left (by rw [List.length_set]; exact hLt),
    List.getElem?_set_ne hne, h]

/-- A property of each task and the shared state survives a move when the
moving task keeps its own and the operation leaves the others' alone. -/
theorem Move.forall_tasks {c d : Config σ τ} {op : ω} {J : Nat → σ → τ → Prop}
    (hm : M.Move c op d)
    (hJ : ∀ i t, c.tasks[i]? = some t → J i c.shared t)
    (hOwn : ∀ i t ch t' started, c.tasks[i]? = some t →
      M.next i c.shared t ch = some (op, t', started) →
      J i (M.exec op c.shared) t' ∧ ∀ j, ∀ u ∈ started, J j (M.exec op c.shared) u)
    (hOutside : ∀ started, M.outside c.shared op = some started →
      ∀ j, ∀ u ∈ started, J j (M.exec op c.shared) u)
    (hStable : ∀ j u, c.tasks[j]? = some u → J j c.shared u → J j (M.exec op c.shared) u) :
    ∀ j u, d.tasks[j]? = some u → J j d.shared u := by
  intro j u hu
  cases hm with
  | @task i t t' ch started ht hn =>
    obtain ⟨h1, h2⟩ := hOwn i t ch t' started ht hn
    rcases getElem?_set_append hu with ⟨rfl, rfl⟩ | hu | hu
    · exact h1
    · exact hStable j u hu (hJ j u hu)
    · exact h2 j u hu
  | @outside started hs =>
    simp only at hu
    rcases Nat.lt_or_ge j c.tasks.length with hlt | hge
    · rw [List.getElem?_append_left hlt] at hu
      exact hStable j u hu (hJ j u hu)
    · rw [List.getElem?_append_right hge] at hu
      exact hOutside started hs j u (List.mem_of_getElem? hu)

/-- The same for a property that the operation may take from the moving task,
as long as the others keep theirs. -/
theorem Move.forall_tasks_ne {c d : Config σ τ} {op : ω} {J : Nat → σ → τ → Prop}
    (hm : M.Move c op d)
    (hOwn : ∀ (i : Nat) t ch t' started, c.tasks[i]? = some t →
      M.next i c.shared t ch = some (op, t', started) →
      J i (M.exec op c.shared) t' ∧ (∀ j, ∀ u ∈ started, J j (M.exec op c.shared) u) ∧
        ∀ (j : Nat) u, j ≠ i → c.tasks[j]? = some u → J j (M.exec op c.shared) u)
    (hOutside : ∀ started, M.outside c.shared op = some started →
      (∀ j, ∀ u ∈ started, J j (M.exec op c.shared) u) ∧
        ∀ (j : Nat) u, c.tasks[j]? = some u → J j (M.exec op c.shared) u) :
    ∀ (j : Nat) u, d.tasks[j]? = some u → J j d.shared u := by
  intro j u hu
  cases hm with
  | @task i t t' ch started ht hn =>
    obtain ⟨hSelf, hNew, hOthers⟩ := hOwn i t ch t' started ht hn
    by_cases hij : j = i
    · subst hij
      rw [getElem?_set_append_self ht] at hu
      cases hu
      exact hSelf
    · rcases getElem?_set_append hu with ⟨heq, -⟩ | hu | hu
      · exact absurd heq hij
      · exact hOthers j u hij hu
      · exact hNew j u hu
  | @outside started hs =>
    obtain ⟨hNew, hOld⟩ := hOutside started hs
    simp only at hu
    rcases Nat.lt_or_ge j c.tasks.length with hlt | hge
    · rw [List.getElem?_append_left hlt] at hu
      exact hOld j u hu
    · rw [List.getElem?_append_right hge] at hu
      exact hNew j u (List.mem_of_getElem? hu)

/-- What every move of a task keeps holds of the task along a run, whatever the
others do. -/
theorem Steps.task_invariant {allow : Config σ τ → ω → Prop} {c d : Config σ τ} {i : Nat}
    {P : τ → Prop}
    (hOwn : ∀ s t ch op t' started, P t → M.next i s t ch = some (op, t', started) → P t')
    (h : M.Steps allow c d) {t : τ} (ht : c.tasks[i]? = some t) (hP : P t) :
    ∃ t', d.tasks[i]? = some t' ∧ P t' := by
  induction h with
  | refl => exact ⟨t, ht, hP⟩
  | @tail d e op _ hm _ ih =>
    obtain ⟨u, hu, hPu⟩ := ih
    have hLt := (List.getElem?_eq_some_iff.mp hu).1
    cases hm with
    | @task j v v' ch started hv hn =>
      by_cases hij : j = i
      · subst hij
        cases Option.some.inj (hv.symm.trans hu)
        exact ⟨v', getElem?_set_append_self hv, hOwn _ _ ch op v' started hPu hn⟩
      · exact ⟨u, getElem?_set_append_ne hij hu, hPu⟩
    | outside _ =>
      refine ⟨u, ?_, hPu⟩
      rw [List.getElem?_append_left hLt, hu]

-- ---------------------------------------------------------------------------
-- Conservation
-- ---------------------------------------------------------------------------

/-- The weight of a list of tasks. -/
def weigh (w : τ → Int) (ts : List τ) : Int := (ts.map w).sum

@[simp] theorem weigh_nil (w : τ → Int) : weigh w ([] : List τ) = 0 := rfl

@[simp] theorem weigh_cons (w : τ → Int) (t : τ) (ts : List τ) :
    weigh w (t :: ts) = w t + weigh w ts := by
  simp [weigh]

theorem weigh_append (w : τ → Int) (ts us : List τ) :
    weigh w (ts ++ us) = weigh w ts + weigh w us := by
  simp [weigh]

/-- Replacing a task replaces its weight. -/
theorem weigh_set {w : τ → Int} {ts : List τ} {i : Nat} {t : τ} (t' : τ)
    (h : ts[i]? = some t) : weigh w (ts.set i t') = weigh w ts - w t + w t' := by
  induction ts generalizing i with
  | nil => cases h
  | cons u rest ih =>
    cases i with
    | zero =>
      cases h
      simp only [List.set_cons_zero, weigh_cons]
      ring
    | succ i =>
      simp only [List.set_cons_succ, weigh_cons, ih (by simpa using h)]
      ring

theorem weigh_nonneg {w : τ → Int} (hw : ∀ t, 0 ≤ w t) (ts : List τ) : 0 ≤ weigh w ts := by
  induction ts with
  | nil => exact Int.le_refl 0
  | cons t rest ih => rw [weigh_cons]; exact Int.add_nonneg (hw t) ih

/-- No task weighs more than all of them. -/
theorem le_weigh {w : τ → Int} (hw : ∀ t, 0 ≤ w t) {l : List τ} {i : Nat} {t : τ}
    (h : l[i]? = some t) : w t ≤ weigh w l := by
  induction l generalizing i with
  | nil => cases h
  | cons u rest ih =>
    rw [weigh_cons]
    cases i with
    | zero =>
      cases h
      have := weigh_nonneg hw rest
      omega
    | succ i =>
      have h1 := ih (i := i) (by simpa using h)
      have h2 := hw u
      omega

/-- Two tasks weigh no more than the pool. -/
theorem add_le_weigh {w : τ → Int} (hw : ∀ t, 0 ≤ w t) {ts : List τ} {i j : Nat} {t u : τ}
    (hij : i ≠ j) (hi : ts[i]? = some t) (hj : ts[j]? = some u) : w t + w u ≤ weigh w ts := by
  induction ts generalizing i j with
  | nil => cases hi
  | cons v rest ih =>
    rw [weigh_cons]
    cases i with
    | zero =>
      cases hi
      cases j with
      | zero => exact absurd rfl hij
      | succ j =>
        have := le_weigh hw (l := rest) (i := j) (by simpa using hj)
        omega
    | succ i =>
      cases j with
      | zero =>
        cases hj
        have := le_weigh hw (l := rest) (i := i) (by simpa using hi)
        omega
      | succ j =>
        have h := ih (i := i) (j := j) (fun h => hij (by rw [h])) (by simpa using hi)
          (by simpa using hj)
        have := hw v
        omega

theorem weigh_eq_zero {w : τ → Int} {ts : List τ} (h : ∀ t ∈ ts, w t = 0) : weigh w ts = 0 := by
  induction ts with
  | nil => rfl
  | cons t rest ih =>
    rw [weigh_cons, h t (List.mem_cons_self ..), ih fun u hu => h u (List.mem_cons_of_mem _ hu)]
    rfl

/-- The measure of a pool: that of its shared state and its tasks' weights. -/
def total (μ : σ → Int) (w : τ → Int) (c : Config σ τ) : Int :=
  μ c.shared + weigh w c.tasks

/-- **Conservation.** What no task and no outside step adds to, no move adds to. -/
theorem Move.total_le {c d : Config σ τ} {op : ω} {μ : σ → Int} {w : τ → Int}
    (hm : M.Move c op d)
    (hTask : ∀ i t ch t' started, c.tasks[i]? = some t →
      M.next i c.shared t ch = some (op, t', started) →
      μ (M.exec op c.shared) + w t' + weigh w started ≤ μ c.shared + w t)
    (hOutside : ∀ started, M.outside c.shared op = some started →
      μ (M.exec op c.shared) + weigh w started ≤ μ c.shared) :
    total μ w d ≤ total μ w c := by
  cases hm with
  | @task i t t' ch started ht hn =>
    have h := hTask i t ch t' started ht hn
    simp only [total, weigh_append, weigh_set t' ht]
    omega
  | @outside started hs =>
    have h := hOutside started hs
    simp only [total, weigh_append]
    omega

/-- What each of them leaves as it is, every move does. -/
theorem Move.total_eq {c d : Config σ τ} {op : ω} {μ : σ → Int} {w : τ → Int}
    (hm : M.Move c op d)
    (hTask : ∀ i t ch t' started, c.tasks[i]? = some t →
      M.next i c.shared t ch = some (op, t', started) →
      μ (M.exec op c.shared) + w t' + weigh w started = μ c.shared + w t)
    (hOutside : ∀ started, M.outside c.shared op = some started →
      μ (M.exec op c.shared) + weigh w started = μ c.shared) :
    total μ w d = total μ w c := by
  cases hm with
  | @task i t t' ch started ht hn =>
    have h := hTask i t ch t' started ht hn
    simp only [total, weigh_append, weigh_set t' ht]
    omega
  | @outside started hs =>
    have h := hOutside started hs
    simp only [total, weigh_append]
    omega

end Machine

end EphMemory.Lib
