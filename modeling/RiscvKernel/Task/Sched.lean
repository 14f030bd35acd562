import Mathlib.Logic.Function.Basic
import RiscvKernel.Lib.CyclicScan

/-!
# The scheduler

The functions of `kernel/sched.c`, for any number `n` of task slots (`MAX_TASKS`). Which slot is
current and the states of the slots are the state `Sched`.

* `yieldDecision`: what `task_yield` decides, before `switch_to` is called.
* `yieldDecision_cases`: everything a decision can do.
* `chosen_within_one_round`: a slot that is runnable at each of `n` decisions is chosen by one
  of them.
-/

namespace RiscvKernel

open CyclicScan

/-- `TASK_READY`, `TASK_RUNNING`, `TASK_SLEEPING`, `TASK_DEAD`. -/
inductive TaskState
  | ready
  | running
  | sleeping
  | dead
  deriving DecidableEq, Repr

/-- `current_task` and `task_states`. -/
@[ext]
structure Sched (n : ℕ) where
  /-- `current_task`. -/
  currentTask : Fin n
  /-- `task_states`. -/
  taskStates : Fin n → TaskState

variable {n : ℕ}

/-- `task_is_runnable`. -/
def taskIsRunnable (states : Fin n → TaskState) (id : Fin n) : Bool :=
  states id = .ready || states id = .running

/-- `sched_pick_next`: the first runnable slot after `current`, `current` itself being the
last one looked at; `none` stands for `-1`. -/
def schedPickNext (states : Fin n → TaskState) (current : Fin n) : Option (Fin n) :=
  scan (taskIsRunnable states) n current

/-- `sched_prepare_switch`. -/
def schedPrepareSwitch (next : Fin n) (s : Sched n) : Sched n :=
  let prev := s.currentTask
  let states :=
    if s.taskStates prev = .running then Function.update s.taskStates prev .ready
    else s.taskStates
  { currentTask := next, taskStates := Function.update states next .running }

/-- What `task_yield` decides: `none` when it halts because no slot is runnable, otherwise the
state in which `switch_to` is called, or the same state if the current task goes on. -/
def yieldDecision (s : Sched n) : Option (Sched n) :=
  match schedPickNext s.taskStates s.currentTask with
  | none => none
  | some next => some (if next ≠ s.currentTask then schedPrepareSwitch next s else s)

variable {s s' : Sched n} {t next : Fin n}

theorem taskIsRunnable_iff (states : Fin n → TaskState) (id : Fin n) :
    taskIsRunnable states id = true ↔ states id = .ready ∨ states id = .running := by
  simp [taskIsRunnable]

theorem schedPickNext_eq_none (states : Fin n → TaskState) (current : Fin n) :
    schedPickNext states current = none ↔ ∀ id, ¬ taskIsRunnable states id = true :=
  scan_eq_none_iff

@[simp]
theorem schedPrepareSwitch_currentTask (next : Fin n) (s : Sched n) :
    (schedPrepareSwitch next s).currentTask = next := rfl

theorem schedPrepareSwitch_next (next : Fin n) (s : Sched n) :
    (schedPrepareSwitch next s).taskStates next = .running :=
  Function.update_self _ _ _

/-- Slots that are neither left nor switched to keep their state. -/
theorem schedPrepareSwitch_of_ne (h : t ≠ next) :
    (schedPrepareSwitch next s).taskStates t
      = if t = s.currentTask ∧ s.taskStates t = .running then .ready else s.taskStates t := by
  rw [schedPrepareSwitch]
  dsimp only
  rw [Function.update_of_ne h]
  by_cases hrun : s.taskStates s.currentTask = .running
  · rw [if_pos hrun]
    by_cases ht : t = s.currentTask
    · rw [ht, Function.update_self, if_pos ⟨rfl, hrun⟩]
    · rw [Function.update_of_ne ht, if_neg (fun h => ht h.1)]
  · rw [if_neg hrun, if_neg]
    rintro ⟨rfl, h⟩
    exact hrun h

/-- A decision goes on with the current task, or prepares a switch to another slot; in both
cases the slot was runnable. -/
theorem yieldDecision_cases (h : yieldDecision s = some s') :
    (s' = s ∧ taskIsRunnable s.taskStates s.currentTask = true) ∨
      ∃ next, next ≠ s.currentTask ∧ taskIsRunnable s.taskStates next = true ∧
        s' = schedPrepareSwitch next s := by
  rw [yieldDecision] at h
  cases hpick : schedPickNext s.taskStates s.currentTask with
  | none =>
    rw [hpick] at h
    cases h
  | some next =>
    rw [hpick] at h
    have hrun := (scan_eq_some hpick).1
    by_cases hne : next ≠ s.currentTask
    · exact Or.inr ⟨next, hne, hrun, by simpa [hne] using h.symm⟩
    · rw [not_not] at hne
      subst hne
      exact Or.inl ⟨by simpa using h.symm, hrun⟩

/-- A decision keeps every runnable slot runnable. -/
theorem yieldDecision_runnable (h : yieldDecision s = some s')
    (ht : taskIsRunnable s.taskStates t = true) : taskIsRunnable s'.taskStates t = true := by
  rcases yieldDecision_cases h with ⟨rfl, -⟩ | ⟨next, -, -, rfl⟩
  · exact ht
  · rw [taskIsRunnable_iff] at ht ⊢
    by_cases hnext : t = next
    · subst hnext
      exact Or.inr (schedPrepareSwitch_next t s)
    · rw [schedPrepareSwitch_of_ne hnext]
      split_ifs
      · exact Or.inl rfl
      · exact ht

/-- After a decision the slot picked is current. -/
theorem yieldDecision_currentTask (h : yieldDecision s = some s') :
    schedPickNext s.taskStates s.currentTask = some s'.currentTask := by
  rw [yieldDecision] at h
  cases hpick : schedPickNext s.taskStates s.currentTask with
  | none =>
    rw [hpick] at h
    cases h
  | some next =>
    rw [hpick] at h
    obtain rfl := Option.some.inj h
    by_cases hne : next ≠ s.currentTask
    · rw [if_pos hne, schedPrepareSwitch_currentTask]
    · rw [if_neg hne, not_not.mp hne]

/-- A decision fails only when no slot is runnable. -/
theorem yieldDecision_eq_none (s : Sched n) :
    yieldDecision s = none ↔ ∀ id, ¬ taskIsRunnable s.taskStates id = true := by
  rw [← schedPickNext_eq_none s.taskStates s.currentTask, yieldDecision]
  cases schedPickNext s.taskStates s.currentTask <;> simp

/-- Of `n` decisions, each taken in a state whose current slot is the one chosen by the decision
before it and whose slots are otherwise in any states, one chooses a slot that is runnable at
each of them, and an earlier one than the last if the slot was not the first current one. No
decision fails unless no slot is runnable. -/
theorem chosen_within_one_round (run : ℕ → Sched n) (t : Fin n)
    (hrun : ∀ k < n, taskIsRunnable (run k).taskStates t = true)
    (hstep : ∀ k < n, ∀ s', yieldDecision (run k) = some s' →
      (run (k + 1)).currentTask = s'.currentTask) :
    (∃ k < n, (yieldDecision (run k)).map Sched.currentTask = some t) ∧
      (t ≠ (run 0).currentTask →
        ∃ k < n - 1, (yieldDecision (run k)).map Sched.currentTask = some t) ∧
      ∀ s : Sched n, yieldDecision s = none ↔
        ∀ id, s.taskStates id ≠ .ready ∧ s.taskStates id ≠ .running := by
  -- as `t` is ready to run, each decision picks somebody
  have hdecide : ∀ k < n, ∃ s', yieldDecision (run k) = some s' := by
    intro k hk
    rw [← Option.ne_none_iff_exists', Ne, yieldDecision_eq_none]
    exact fun hall => hall t (hrun k hk)
  have hpos : ∀ k < n, schedPickNext (run k).taskStates (run k).currentTask
      = some (run (k + 1)).currentTask := by
    intro k hk
    obtain ⟨s', hs'⟩ := hdecide k hk
    rw [hstep k hk s' hs']
    exact yieldDecision_currentTask hs'
  obtain ⟨k, hk, hkt⟩ := exists_chosen (fun k => taskIsRunnable (run k).taskStates)
    (fun k => (run k).currentTask) hrun hpos
    (gap_lt (run 0).currentTask t)
  have hchosen : ∀ k < n, (run (k + 1)).currentTask = t →
      (yieldDecision (run k)).map Sched.currentTask = some t := by
    intro k hk hkt
    obtain ⟨s', hs'⟩ := hdecide k hk
    rw [hs', Option.map_some, ← hstep k hk s' hs', hkt]
  -- `t` is at most `n` behind the current task, and less if it is another one
  have hgap := gap_lt (run 0).currentTask t
  refine ⟨⟨k, by omega, hchosen k (by omega) hkt⟩, fun hne => ?_, fun s => ?_⟩
  · have := gap_lt_of_ne hne
    exact ⟨k, by omega, hchosen k (by omega) hkt⟩
  · simp only [yieldDecision_eq_none, taskIsRunnable_iff, not_or, Ne]

/-- Two slots taking turns: slot `1` is chosen by the first of the two decisions. -/
theorem chosen_within_one_round_two :
    let run : ℕ → Sched 2 := fun k => ⟨if k % 2 = 0 then 0 else 1, fun _ => .ready⟩
    ∃ k < 1, (yieldDecision (run k)).map Sched.currentTask = some 1 := by
  intro run
  refine (chosen_within_one_round run 1 (fun _ _ => rfl) ?_).2.1 (by decide)
  intro k hk s' hs'
  have hpick : schedPickNext (run k).taskStates (run k).currentTask
      = some (run (k + 1)).currentTask := by
    obtain rfl | rfl : k = 0 ∨ k = 1 := by omega
    · decide
    · decide
  rw [yieldDecision_currentTask hs'] at hpick
  exact (Option.some.inj hpick).symm

end RiscvKernel
