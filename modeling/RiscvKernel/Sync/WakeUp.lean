import RiscvKernel.Sync.Exclusion

/-!
# Wake-ups

`mutex_lock` releases the guard before `task_sleep` marks the task `TASK_SLEEPING`, and the loop
of `mutex_unlock` wakes only tasks that are marked. An unlock between the two frees the mutex
without waking the task, which then sleeps on a free mutex (`exists_lost_wake_up`).

`WillWake` says when a task may still mark itself: while the mutex is locked, while another task
is about to lock it, or while an unlock has yet to look at the task. If every task marks itself
at such a moment, no wake-up is lost (`no_lost_wake_up`). The proof carries `WillWake` for every
sleeping task from the mark to the write that wakes it.
-/

namespace RiscvKernel.Sync

open Function

variable {n : ℕ} {M : Type*} [DecidableEq M] {s s' : State n M} {m : M} {j : Fin n}
  {l : Line n}

/-- Task `j` is `TASK_SLEEPING` inside `mutex_lock(m)`. -/
def SleepsInLock (s : State n M) (m : M) (j : Fin n) : Prop :=
  s.sched.taskStates j = .sleeping ∧ (s.line m j).any Line.inLock = true

/-- When the guard of `m` is free and no task is inside `mutex_unlock(m)`, a task that sleeps
inside `mutex_lock(m)` waits for a task that has locked `m`. -/
def NoLostWakeUp (s : State n M) (m : M) : Prop :=
  (s.mutexes m).guard = 0 → (∀ k l, s.line m k = some l → l.inLock = true) →
    ∀ j, SleepsInLock s m j → (s.mutexes m).locked = 1

/-- Something is still to come that wakes task `j`, or locks the mutex again: the mutex is
locked, a task has seen it free with the guard taken or has just freed it, or the loop of
`mutex_unlock` has not passed `j`. -/
def WillWake (x : Mutex) (line : Fin n → Option (Line n)) (j : Fin n) : Prop :=
  x.locked ≠ 0 ∨
    (∃ k, line k = some .lockRead ∨ line k = some .lockTake ∨ line k = some .unlockDisown) ∨
    ∃ k, ∃ i ≤ j, line k = some (.wakeRead i) ∨ line k = some (.wakeWrite i)

instance (x : Mutex) (line : Fin n → Option (Line n)) (j : Fin n) :
    Decidable (WillWake x line j) :=
  inferInstanceAs (Decidable (_ ∨ _ ∨ _))

/-- A task that is about to mark itself sleeping in `mutex_lock(m)` will be woken. -/
def Timely (m : M) (s : State n M) : Event M → Prop
  | .act => s.line m s.sched.currentTask = some .sleepMark →
    WillWake (s.mutexes m) (s.line m) s.sched.currentTask
  | _ => True

instance (m : M) (s : State n M) (e : Event M) : Decidable (Timely m s e) :=
  match e with
  | .act => inferInstanceAs (Decidable (_ → _))
  | .lock _ | .unlock _ | .tick => inferInstanceAs (Decidable True)

/-- All events of a run are timely. -/
def TimelyRun (m : M) (s : State n M) : List (Event M) → Prop
  | [] => True
  | e :: es => Timely m s e ∧ (step s e).elim True fun s' => TimelyRun m s' es

instance decidableTimelyRun (m : M) :
    ∀ (s : State n M) (es : List (Event M)), Decidable (TimelyRun m s es)
  | _, [] => inferInstanceAs (Decidable True)
  | s, e :: es =>
    have : Decidable ((step s e).elim True fun s' => TimelyRun m s' es) :=
      match step s e with
      | none => inferInstanceAs (Decidable True)
      | some s' => decidableTimelyRun m s' es
    inferInstanceAs (Decidable (_ ∧ _))

section Line

variable {x x' : Mutex} {line : Fin n → Option (Line n)} {sched sched' : Sched n}
  {next : Option (Line n)} {k i : Fin n}

theorem WillWake.of_locked (h : x.locked ≠ 0) : WillWake x line j := Or.inl h

theorem WillWake.of_line (h : line k = some .lockRead ∨ line k = some .lockTake ∨
    line k = some .unlockDisown) : WillWake x line j := Or.inr (Or.inl ⟨k, h⟩)

theorem WillWake.of_loop (hle : i ≤ j)
    (h : line k = some (.wakeRead i) ∨ line k = some (.wakeWrite i)) : WillWake x line j :=
  Or.inr (Or.inr ⟨k, i, hle, h⟩)

/-- The loop goes on at index `i`, at or before `j`. -/
theorem WillWake.of_wakeLoop {i : ℕ} (hle : i ≤ j.val) :
    WillWake x (update line k (some (wakeLoop i))) j := by
  rcases wakeLoop_cases (n := n) i with ⟨i', rfl, hi⟩ | ⟨hn, -⟩
  · exact WillWake.of_loop (k := k) (Fin.le_def.mpr hle) (Or.inl (by rw [update_self, hi]))
  · have := j.isLt
    omega

/-- A task moves: what will wake `j` stays, unless it was the loop of that task. -/
theorem WillWake.move_or (h : WillWake x line j) (hat : line k = some l)
    (hlocked : x.locked ≠ 0 → x'.locked ≠ 0)
    (hline : l ≠ .lockRead ∧ l ≠ .lockTake ∧ l ≠ .unlockDisown) :
    WillWake x' (update line k next) j ∨ ∃ i ≤ j, l = .wakeRead i ∨ l = .wakeWrite i := by
  rcases h with h | ⟨k', h⟩ | ⟨k', i, hle, h⟩
  · exact Or.inl (.of_locked (hlocked h))
  · have hk : k' ≠ k := by
      rintro rfl
      simp [hat, hline] at h
    exact Or.inl (.of_line (k := k') (by rwa [update_of_ne hk]))
  · by_cases hk : k' = k
    · subst hk
      rw [hat, Option.some_inj, Option.some_inj] at h
      exact Or.inr ⟨i, hle, h⟩
    · exact Or.inl (.of_loop (k := k') hle (by rwa [update_of_ne hk]))

/-- A task enters the code of the mutex. -/
theorem WillWake.call (h : WillWake x line j) (hout : line k = none) :
    WillWake x (update line k next) j := by
  have hne : ∀ {k' : Fin n} {l' : Line n}, line k' = some l' → update line k next k' = some l' := by
    intro k' l' hk'
    rw [update_of_ne, hk']
    rintro rfl
    simp [hout] at hk'
  rcases h with h | ⟨k', h⟩ | ⟨k', i, hle, h⟩
  · exact .of_locked h
  · exact .of_line (k := k') (h.imp hne (Or.imp hne hne))
  · exact .of_loop (k := k') hle (h.imp hne hne)

/-- A task that is not at one of the lines of `WillWake` may move. -/
theorem WillWake.move (h : WillWake x line j) (hat : line k = some l)
    (hlocked : x.locked ≠ 0 → x'.locked ≠ 0)
    (hline : l ≠ .lockRead ∧ l ≠ .lockTake ∧ l ≠ .unlockDisown)
    (hloop : ∀ i, l ≠ .wakeRead i ∧ l ≠ .wakeWrite i) : WillWake x' (update line k next) j := by
  rcases h.move_or hat hlocked hline with h' | ⟨i, -, hi⟩
  · exact h'
  · simp [hloop] at hi

/-- A line of the current task does not take away what will wake a task, unless it wakes it. -/
theorem WillWake.lineStep (h : WillWake x line j) (hat : line sched.currentTask = some l)
    (hrun : lineStep x sched l = some (x', sched', next))
    (hsleeping : sched'.taskStates j = .sleeping) :
    WillWake x' (update line sched.currentTask next) j := by
  cases l with
  | lockRead =>
    obtain ⟨rfl, -, rfl⟩ := by simpa [Sync.lineStep] using hrun
    by_cases hzero : x.locked = 0
    · exact .of_line (k := sched.currentTask) (by simp [hzero])
    · exact .of_locked hzero
  | lockTake =>
    obtain ⟨rfl, -, rfl⟩ := by simpa [Sync.lineStep] using hrun
    exact .of_locked (by simp)
  | unlockClear =>
    obtain ⟨rfl, -, rfl⟩ := by simpa [Sync.lineStep] using hrun
    exact .of_line (k := sched.currentTask) (by simp)
  | unlockDisown =>
    obtain ⟨rfl, -, rfl⟩ := by simpa [Sync.lineStep] using hrun
    exact .of_wakeLoop (Nat.zero_le _)
  | wakeRead i =>
    obtain ⟨rfl, rfl, rfl⟩ := by simpa [Sync.lineStep] using hrun
    rcases h.move_or hat id (by simp) with h' | ⟨i', hle, hi⟩
    · exact h'
    · obtain rfl : i = i' := by simpa using hi
      split_ifs with hmarked
      · exact .of_loop (k := sched.currentTask) hle (by simp)
      · -- `j` itself is marked, so the loop has not come to it yet
        have hne : i.val ≠ j.val := by
          intro hij
          exact hmarked (Fin.ext hij ▸ hsleeping)
        have := Fin.le_def.mp hle
        exact .of_wakeLoop (by omega)
  | wakeWrite i =>
    obtain ⟨rfl, rfl, rfl⟩ := by simpa [Sync.lineStep] using hrun
    rcases h.move_or hat id (by simp) with h' | ⟨i', hle, hi⟩
    · exact h'
    · obtain rfl : i = i' := by simpa using hi
      -- the write wakes `i`, and `j` still sleeps
      have hne : i.val ≠ j.val := by
        intro hij
        obtain rfl := Fin.ext hij
        simp at hsleeping
      have := Fin.le_def.mp hle
      exact .of_wakeLoop (by omega)
  | lockGuard =>
    obtain ⟨rfl, -, rfl⟩ := by simpa [Sync.lineStep] using hrun
    exact h.move hat id (by simp) (by simp)
  | lockOwn =>
    obtain ⟨rfl, -, rfl⟩ := by simpa [Sync.lineStep] using hrun
    exact h.move hat id (by simp) (by simp)
  | lockRelease =>
    obtain ⟨rfl, -, rfl⟩ := by simpa [Sync.lineStep] using hrun
    exact h.move hat id (by simp) (by simp)
  | sleepRelease =>
    obtain ⟨rfl, -, rfl⟩ := by simpa [Sync.lineStep] using hrun
    exact h.move hat id (by simp) (by simp)
  | sleepMark =>
    obtain ⟨rfl, -, rfl⟩ := by simpa [Sync.lineStep] using hrun
    exact h.move hat id (by simp) (by simp)
  | sleepYield =>
    obtain ⟨-, rfl, rfl⟩ := by simpa [Sync.lineStep] using hrun
    exact h.move hat id (by simp) (by simp)
  | unlockGuard =>
    obtain ⟨rfl, -, rfl⟩ := by simpa [Sync.lineStep] using hrun
    exact h.move hat id (by simp) (by simp)
  | unlockRelease =>
    obtain ⟨rfl, -, rfl⟩ := by simpa [Sync.lineStep] using hrun
    exact h.move hat id (by simp) (by simp)

end Line

/-- The current task sleeps only between its mark and its `task_yield`. -/
def Awake (s : State n M) : Prop :=
  s.sched.taskStates s.sched.currentTask = .sleeping →
    ∃ m, s.pc s.sched.currentTask = some (m, .sleepYield)

/-- A decision of `task_yield` neither puts a task to sleep nor wakes one, and the task that
goes on does not sleep. -/
theorem yieldDecision_sleeping {sched sched' : Sched n} (h : yieldDecision sched = some sched') :
    (∀ j, sched'.taskStates j = .sleeping → sched.taskStates j = .sleeping) ∧
      sched'.taskStates sched'.currentTask ≠ .sleeping := by
  rcases yieldDecision_cases h with ⟨rfl, hrun⟩ | ⟨next, -, -, rfl⟩
  · refine ⟨fun _ hj => hj, fun hsleeping => ?_⟩
    simp [taskIsRunnable, hsleeping] at hrun
  · refine ⟨fun j hj => ?_, by simp [schedPrepareSwitch_next]⟩
    by_cases hnext : j = next
    · subst hnext
      simp [schedPrepareSwitch_next] at hj
    · rw [schedPrepareSwitch_of_ne hnext] at hj
      split_ifs at hj
      exact hj

/-- What a line does to the states of the tasks and to the current one. -/
theorem lineStep_sched {x x' : Mutex} {sched sched' : Sched n} {next : Option (Line n)}
    (hrun : lineStep x sched l = some (x', sched', next)) :
    (∀ j, sched'.taskStates j = .sleeping →
      sched.taskStates j = .sleeping ∨ j = sched.currentTask ∧ l = .sleepMark) ∧
    (l ≠ .sleepYield → sched'.currentTask = sched.currentTask) ∧
    (l = .sleepYield → sched'.taskStates sched'.currentTask ≠ .sleeping) := by
  cases l with
  | sleepYield =>
    obtain ⟨hyield, -, -⟩ := by simpa [lineStep] using hrun
    have h := yieldDecision_sleeping hyield
    exact ⟨fun j hj => Or.inl (h.1 j hj), by simp, fun _ => h.2⟩
  | sleepMark =>
    obtain ⟨-, rfl, -⟩ := by simpa [lineStep] using hrun
    refine ⟨fun j hj => ?_, by simp, by simp⟩
    by_cases hcur : j = sched.currentTask
    · exact Or.inr ⟨hcur, rfl⟩
    · exact Or.inl (by simpa [hcur] using hj)
  | wakeWrite i =>
    obtain ⟨-, rfl, -⟩ := by simpa [lineStep] using hrun
    refine ⟨fun j hj => Or.inl ?_, by simp, by simp⟩
    by_cases hi : j = i
    · simp [hi] at hj
    · simpa [hi] using hj
  | _ =>
    obtain ⟨-, rfl, -⟩ := by simpa [lineStep] using hrun
    exact ⟨fun _ hj => Or.inl hj, by simp, by simp⟩

/-- A task sleeps after a step if it slept before, or if it has just marked itself. -/
theorem step_sleeping {e : Event M} (h : step s e = some s')
    (hj : s'.sched.taskStates j = .sleeping) :
    s.sched.taskStates j = .sleeping ∨
      j = s.sched.currentTask ∧ e = .act ∧ ∃ m, s.pc j = some (m, .sleepMark) := by
  cases e with
  | lock m =>
    simp only [step] at h
    split_ifs at h
    obtain rfl := Option.some.inj h
    exact Or.inl hj
  | unlock m =>
    simp only [step] at h
    split_ifs at h
    obtain rfl := Option.some.inj h
    exact Or.inl hj
  | act =>
    simp only [step] at h
    cases hpc : s.pc s.sched.currentTask with
    | none => simp [hpc] at h
    | some p =>
      obtain ⟨m, l⟩ := p
      simp only [hpc, Option.map_eq_some_iff] at h
      obtain ⟨⟨x, sched, next⟩, hrun, rfl⟩ := h
      -- of the lines only `sleepMark` puts a task to sleep, the one that runs it
      refine ((lineStep_sched hrun).1 j hj).imp id ?_
      rintro ⟨rfl, rfl⟩
      exact ⟨rfl, rfl, m, hpc⟩
  | tick =>
    simp only [step, Option.map_eq_some_iff] at h
    obtain ⟨sched, hyield, rfl⟩ := h
    exact Or.inl ((yieldDecision_sleeping hyield).1 j hj)

theorem Awake.step {e : Event M} (h : Awake s) (hstep : step s e = some s') : Awake s' := by
  cases e with
  | lock m =>
    simp only [Sync.step] at hstep
    split_ifs at hstep with hout
    obtain rfl := Option.some.inj hstep
    intro hsleeping
    obtain ⟨m', hm'⟩ := h hsleeping
    simp [hout] at hm'
  | unlock m =>
    simp only [Sync.step] at hstep
    split_ifs at hstep with hout
    obtain rfl := Option.some.inj hstep
    intro hsleeping
    obtain ⟨m', hm'⟩ := h hsleeping
    simp [hout.1] at hm'
  | act =>
    simp only [Sync.step] at hstep
    cases hpc : s.pc s.sched.currentTask with
    | none => simp [hpc] at hstep
    | some p =>
      obtain ⟨m, l⟩ := p
      simp only [hpc, Option.map_eq_some_iff] at hstep
      obtain ⟨⟨x, sched, next⟩, hrun, rfl⟩ := hstep
      obtain ⟨hstates, hcur, hyield⟩ := lineStep_sched hrun
      intro hsleeping
      -- asleep after the step: asleep before it, or marked by `sleepMark`
      change sched.taskStates sched.currentTask = .sleeping at hsleeping
      by_cases hl : l = .sleepYield
      · exact absurd hsleeping (hyield hl)
      · rcases hstates _ hsleeping with hbefore | ⟨-, rfl⟩
        · -- the current task would sleep at another line than `sleepYield`
          rw [hcur hl] at hbefore
          obtain ⟨m', hm'⟩ := h hbefore
          rw [hpc] at hm'
          exact absurd (Prod.mk.inj (Option.some.inj hm')).2 hl
        · obtain ⟨-, rfl, rfl⟩ := by simpa [lineStep] using hrun
          exact ⟨m, by simp⟩
  | tick =>
    simp only [Sync.step, Option.map_eq_some_iff] at hstep
    obtain ⟨sched, hyield, rfl⟩ := hstep
    exact fun hsleeping => absurd hsleeping (yieldDecision_sleeping hyield).2

/-- Every task that sleeps inside `mutex_lock(m)` will be woken. -/
def Watched (s : State n M) (m : M) : Prop :=
  ∀ j, SleepsInLock s m j → WillWake (s.mutexes m) (s.line m) j

theorem Watched.step {e : Event M} (h : Watched s m) (hawake : Awake s) (htimely : Timely m s e)
    (hstep : step s e = some s') : Watched s' m := by
  rintro j ⟨hsleeping, hin⟩
  -- if the current task slept before the step, it was at `sleepYield`
  have hcurrent : s.sched.taskStates s.sched.currentTask = .sleeping →
      ∀ l, s.line m s.sched.currentTask = some l → l = .sleepYield := by
    intro hcur l hl
    obtain ⟨m', hm'⟩ := hawake hcur
    rw [State.line_eq_some, hm'] at hl
    exact (Prod.mk.inj (Option.some.inj hl)).2.symm
  -- a task that calls a function does not sleep
  have hcall : s.pc s.sched.currentTask = none → ∀ {l : Line n},
      (update (s.line m) s.sched.currentTask (some l) j).any Line.inLock = true →
      SleepsInLock s m j := by
    intro hout l hin
    rcases step_sleeping hstep hsleeping with hbefore | ⟨rfl, -, m', hmark⟩
    · refine ⟨hbefore, ?_⟩
      rwa [update_of_ne] at hin
      rintro rfl
      obtain ⟨m', hm'⟩ := hawake hbefore
      simp [hout] at hm'
    · simp [hout] at hmark
  cases step_seen hstep m with
  | idle hmutex _ hline =>
    rw [hmutex, hline]
    rw [hline] at hin
    rcases step_sleeping hstep hsleeping with hbefore | ⟨rfl, rfl, m', hmark⟩
    · exact h j ⟨hbefore, hin⟩
    · -- a mark inside `mutex_lock` of another mutex
      by_cases hm : m' = m
      · subst hm
        exact htimely (State.line_eq_some.mpr hmark)
      · simp [State.line, lineOf, hmark, hm] at hin
  | lock _ hmutex _ hout hline =>
    rw [hmutex, hline]
    rw [hline] at hin
    exact (h j (hcall hout hin)).call (State.line_eq_none hout m)
  | unlock _ hmutex _ hout _ hline =>
    rw [hmutex, hline]
    rw [hline] at hin
    exact (h j (hcall hout hin)).call (State.line_eq_none hout m)
  | line l x sched next hact hat hrun hsched hmutex _ hline =>
    subst hact hsched hmutex
    rw [hline] at hin ⊢
    refine WillWake.lineStep ?_ hat hrun hsleeping
    rcases (lineStep_sched hrun).1 j hsleeping with hbefore | ⟨rfl, rfl⟩
    · refine h j ⟨hbefore, ?_⟩
      by_cases hj : j = s.sched.currentTask
      · subst hj
        rw [hat, hcurrent hbefore l hat]
        rfl
      · rwa [update_of_ne hj] at hin
    · exact htimely hat

/-- Along a timely run every sleeping task will be woken. -/
theorem watched_run {es : List (Event M)} (hs : Reachable s) (hawake : Awake s)
    (h : Watched s m) (htimely : TimelyRun m s es) (hrun : run s es = some s') :
    Reachable s' ∧ Watched s' m := by
  induction es generalizing s with
  | nil =>
    obtain rfl := Option.some.inj hrun
    exact ⟨hs, h⟩
  | cons e es ih =>
    rw [run, Option.bind_eq_some_iff] at hrun
    obtain ⟨t, hstep, hrun⟩ := hrun
    obtain ⟨hnow, hlater⟩ := htimely
    rw [hstep] at hlater
    exact ih (hs.step e hstep) (hawake.step hstep) (h.step hawake hnow hstep) hlater hrun

/-- In every run in which each task that marks itself sleeping in `mutex_lock(m)` does so while it
will be woken, no task ever sleeps on a free mutex. -/
theorem no_lost_wake_up {sched : Sched n} {es : List (Event M)}
    (hrunning : sched.taskStates sched.currentTask = .running)
    (htimely : TimelyRun m (initial sched) es) (hrun : run (initial sched) es = some s) :
    NoLostWakeUp s m := by
  have hawake : Awake (initial sched : State n M) := by
    intro hsleeping
    change sched.taskStates sched.currentTask = .sleeping at hsleeping
    simp [hrunning] at hsleeping
  have hwatched : Watched (initial sched : State n M) m := by
    rintro j ⟨-, hin⟩
    simp [initial, State.line, lineOf] at hin
  obtain ⟨hs, h⟩ := watched_run (.initial sched hrunning) hawake hwatched htimely hrun
  have hok := reachable_mutexOk hs m
  intro hguard _ j hj
  -- with the guard free only `locked` can be what the sleeper waits for
  have hnone : ∀ (k : Fin n) (l : Line n), l.inGuard = true → s.line m k ≠ some l := by
    intro k l hl hat
    refine hok.guard.token.free_iff.mp hguard k ?_
    rw [guarded, hat]
    exact hl
  have hlocked : (s.mutexes m).locked ≠ 0 := by
    rcases h j hj with h | ⟨k, h | h | h⟩ | ⟨k, i, -, h | h⟩
    · exact h
    all_goals exact absurd h (hnone k _ rfl)
  exact hok.locked.range.resolve_left hlocked

/-- Task 1 goes to sleep at once: the mutex it waits for is locked. -/
theorem no_lost_wake_up_two : ∃ s, run twoTasks (contend ++ [.act]) = some s ∧
    SleepsInLock s () 1 ∧ NoLostWakeUp s () := by
  have htimely : TimelyRun () twoTasks (contend ++ [.act]) := by decide
  exact ⟨_, rfl, ⟨rfl, rfl⟩, no_lost_wake_up rfl htimely rfl⟩

/-- Task 0 unlocks the mutex before task 1 marks itself: task 1 sleeps on a free mutex. -/
theorem exists_lost_wake_up : ∃ s, Reachable s ∧
    run twoTasks (contend ++ .tick :: unlockAll ++ [.tick, .act]) = some s ∧
    SleepsInLock s () 1 ∧ ¬ NoLostWakeUp s () := by
  obtain ⟨s, hrun, hsleeps, hguard, hlines, hlocked⟩ : ∃ s : State 2 Unit,
      run twoTasks (contend ++ .tick :: unlockAll ++ [.tick, .act]) = some s ∧
      SleepsInLock s () 1 ∧ (s.mutexes ()).guard = 0 ∧
      (∀ k l, s.line () k = some l → l.inLock = true) ∧ (s.mutexes ()).locked = 0 := by
    refine ⟨_, rfl, ⟨rfl, rfl⟩, rfl, ?_, rfl⟩
    decide
  refine ⟨s, (Reachable.initial _ rfl).run hrun, hrun, hsleeps, fun h => ?_⟩
  have hone := h hguard hlines 1 hsleeps
  rw [hlocked] at hone
  exact absurd hone (by decide)

end RiscvKernel.Sync
