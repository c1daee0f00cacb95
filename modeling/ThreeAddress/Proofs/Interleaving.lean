import Mathlib.Data.List.Basic

namespace ThreeAddress

variable {β : Type} {tasks others : List (List β)} {task run : List β}

/-- In each step one of the tasks does its next action, until nothing is left of any of them. -/
inductive Interleaving : List (List β) → List β → Prop
  | done {tasks : List (List β)} : (∀ task ∈ tasks, task = []) → Interleaving tasks []
  | step {before behind : List (List β)} {a : β} {task run : List β} :
      Interleaving (before ++ task :: behind) run →
        Interleaving (before ++ (a :: task) :: behind) (a :: run)

namespace Interleaving

theorem cons_nil (h : Interleaving tasks run) : Interleaving ([] :: tasks) run := by
  induction h with
  | done hd => exact .done fun task ht ↦ (List.mem_cons.1 ht).elim id (hd task)
  | @step before behind a task run _ ih => exact @step β ([] :: before) behind a task run ih

theorem sequential (tasks : List (List β)) : Interleaving tasks tasks.flatten := by
  induction tasks with
  | nil => exact .done (by simp)
  | cons task tasks ih =>
    rw [List.flatten_cons]
    induction task with
    | nil => exact ih.cons_nil
    | cons a task iht => exact @step β [] tasks a task (task ++ tasks.flatten) iht

theorem perm {tasks' : List (List β)} (h : Interleaving tasks run) (hp : tasks.Perm tasks') :
    Interleaving tasks' run := by
  induction h generalizing tasks' with
  | done hd => exact .done fun task ht ↦ hd task (hp.mem_iff.2 ht)
  | @step before behind a task run _ ih =>
    have hmem : a :: task ∈ tasks' := hp.mem_iff.1 (by simp)
    obtain ⟨before', behind', rfl⟩ := List.append_of_mem hmem
    have hrest : (before ++ behind).Perm (before' ++ behind') :=
      (List.perm_middle.symm.trans (hp.trans List.perm_middle)).cons_inv
    exact .step (ih (List.perm_middle.trans ((hrest.cons task).trans List.perm_middle.symm)))

theorem perm_flatten (h : Interleaving tasks run) : run.Perm tasks.flatten := by
  induction h with
  | @done tasks hd => rw [List.flatten_eq_nil_iff.2 hd]
  | @step before behind a task run _ ih =>
    rw [List.flatten_append, List.flatten_cons, List.cons_append]
    rw [List.flatten_append, List.flatten_cons] at ih
    exact (ih.cons a).trans List.perm_middle.symm

theorem filter (h : Interleaving tasks run) (p : β → Bool) :
    Interleaving (tasks.map (·.filter p)) (run.filter p) := by
  induction h with
  | done hd =>
    refine .done fun kept hk ↦ ?_
    obtain ⟨task, ht, rfl⟩ := List.mem_map.1 hk
    rw [hd task ht, List.filter_nil]
  | @step before behind a task run _ ih =>
    simp only [List.map_append, List.map_cons, List.filter_cons] at ih ⊢
    split
    · exact .step ih
    · exact ih

theorem eq_of_rest_nil (h : Interleaving (task :: others) run) (ho : ∀ t ∈ others, t = []) :
    run = task := by
  generalize htasks : task :: others = tasks at h
  induction h generalizing task with
  | done hd => exact (hd task (htasks ▸ List.mem_cons_self)).symm
  | @step before behind a t run _ ih =>
    cases before with
    | nil =>
      obtain ⟨rfl, rfl⟩ := List.cons.inj htasks
      rw [ih rfl]
    | cons t' before =>
      obtain ⟨rfl, rfl⟩ := List.cons.inj htasks
      exact absurd (ho (a :: t) (by simp)) (List.cons_ne_nil a t)

/-- Tasks that do nothing of a kind leave the actions of that kind to the one task that does. -/
theorem filter_eq {p : β → Bool} (h : Interleaving tasks run) (ht : tasks.Perm (task :: others))
    (ho : ∀ t ∈ others, ∀ a ∈ t, p a = false) : run.filter p = task.filter p := by
  refine ((h.perm ht).filter p).eq_of_rest_nil fun kept hk ↦ ?_
  obtain ⟨t, hm, rfl⟩ := List.mem_map.1 hk
  exact List.filter_eq_nil_iff.2 fun a ha ↦ by simp [ho t hm a ha]

end Interleaving

end ThreeAddress
