import Mathlib.Data.Finset.Basic
import RiscvKernel.Task.Sched

/-!
# The mutex

`kernel/mutex.c` over `kernel/spinlock.c`, run by the `n` task slots of the scheduler. The code
of `mutex_lock` and `mutex_unlock` is cut into its atomic actions, one `Line` each: the
`amoswap`s of `spin_lock` and `spin_unlock`, every read and write of `locked`, `owner_id` and
`task_states`, and the call of `task_yield` in `task_sleep`. Between any two of them a timer
interrupt can come, whose handler calls `task_yield`.

* `lineStep`: what one line does.
* `step`: the current task calls one of the two functions or runs its next line, or the timer
  interrupts it.
* `Reachable`: the states of the runs from `mutex_init`.

`holders` records the history of a run: a task holds a mutex from its write `m->locked = 1` to
its write `m->locked = 0`. No line reads it.
-/

namespace RiscvKernel.Sync

/-- `mutex_t`. -/
@[ext]
structure Mutex where
  /-- `locked`. -/
  locked : ℤ
  /-- `guard.locked`. -/
  guard : ℤ
  /-- `owner_id`. -/
  ownerId : ℤ
  deriving DecidableEq

/-- `mutex_init`. -/
def mutexInit : Mutex where
  locked := 0
  guard := 0
  ownerId := -1

/-- The atomic action a task does next, inside `mutex_lock` or `mutex_unlock`. -/
inductive Line (n : ℕ)
  /-- `spin_lock(&m->guard)` in `mutex_lock`. -/
  | lockGuard
  /-- `m->locked == 0`. -/
  | lockRead
  /-- `m->locked = 1`. -/
  | lockTake
  /-- `m->owner_id = current_task`. -/
  | lockOwn
  /-- `spin_unlock(&m->guard)` before `return`. -/
  | lockRelease
  /-- `spin_unlock(&m->guard)` before `task_sleep()`. -/
  | sleepRelease
  /-- `task_states[current_task] = TASK_SLEEPING`. -/
  | sleepMark
  /-- `task_yield()`. -/
  | sleepYield
  /-- `spin_lock(&m->guard)` in `mutex_unlock`. -/
  | unlockGuard
  /-- `m->locked = 0`. -/
  | unlockClear
  /-- `m->owner_id = -1`. -/
  | unlockDisown
  /-- `task_states[i] == TASK_SLEEPING`. -/
  | wakeRead (i : Fin n)
  /-- `task_wakeup(i)`. -/
  | wakeWrite (i : Fin n)
  /-- `spin_unlock(&m->guard)` in `mutex_unlock`. -/
  | unlockRelease
  deriving DecidableEq

variable {n : ℕ} {M : Type*} [DecidableEq M]

/-- The loop test `i < MAX_TASKS` of `mutex_unlock`, and the line after it. -/
def wakeLoop (i : ℕ) : Line n := if h : i < n then .wakeRead ⟨i, h⟩ else .unlockRelease

/-- One line of the current task on a mutex: the new fields, the scheduler, and the next line,
which is `none` after the last one. It is `none` when `task_yield` halts. -/
def lineStep (x : Mutex) (s : Sched n) : Line n → Option (Mutex × Sched n × Option (Line n))
  -- `amoswap` writes 1 whatever the old value is
  | .lockGuard =>
    some ({ x with guard := 1 }, s, some (if x.guard = 0 then .lockRead else .lockGuard))
  | .lockRead => some (x, s, some (if x.locked = 0 then .lockTake else .sleepRelease))
  | .lockTake => some ({ x with locked := 1 }, s, some .lockOwn)
  | .lockOwn => some ({ x with ownerId := s.currentTask.val }, s, some .lockRelease)
  | .lockRelease => some ({ x with guard := 0 }, s, none)
  | .sleepRelease => some ({ x with guard := 0 }, s, some .sleepMark)
  | .sleepMark =>
    some (x, { s with taskStates := Function.update s.taskStates s.currentTask .sleeping },
      some .sleepYield)
  -- back in the `while (1)` of `mutex_lock` when the task runs again
  | .sleepYield => (yieldDecision s).map fun s' => (x, s', some .lockGuard)
  | .unlockGuard =>
    some ({ x with guard := 1 }, s, some (if x.guard = 0 then .unlockClear else .unlockGuard))
  | .unlockClear => some ({ x with locked := 0 }, s, some .unlockDisown)
  | .unlockDisown => some ({ x with ownerId := -1 }, s, some (wakeLoop 0))
  | .wakeRead i =>
    some (x, s, some (if s.taskStates i = .sleeping then .wakeWrite i else wakeLoop (i + 1)))
  | .wakeWrite i =>
    some (x, { s with taskStates := Function.update s.taskStates i .ready },
      some (wakeLoop (i + 1)))
  | .unlockRelease => some ({ x with guard := 0 }, s, none)

/-- The tasks that hold the mutex after `id` has run a line. -/
def Line.holders (id : Fin n) (holders : Finset (Fin n)) : Line n → Finset (Fin n)
  | .lockTake => insert id holders
  | .unlockClear => holders.erase id
  | _ => holders

/-- The tasks, the mutexes, and where every task is: outside both functions, or at a line with
the mutex it was called with. -/
structure State (n : ℕ) (M : Type*) where
  /-- `current_task` and `task_states`. -/
  sched : Sched n
  /-- The mutexes. -/
  mutexes : M → Mutex
  /-- The next line of every task. -/
  pc : Fin n → Option (M × Line n)
  /-- The tasks that hold each mutex. -/
  holders : M → Finset (Fin n)

/-- What happens next. -/
inductive Event (M : Type*)
  /-- The current task calls `mutex_lock(m)`. -/
  | lock (m : M)
  /-- The current task calls `mutex_unlock(m)`, which it does only when it holds `m`. -/
  | unlock (m : M)
  /-- The current task runs its next line. -/
  | act
  /-- A timer interrupt, whose handler calls `task_yield`. -/
  | tick

/-- One event; `none` when it cannot happen, or when `task_yield` halts. -/
def step (s : State n M) : Event M → Option (State n M)
  | .lock m =>
    if s.pc s.sched.currentTask = none then
      some { s with pc := Function.update s.pc s.sched.currentTask (some (m, .lockGuard)) }
    else none
  | .unlock m =>
    if s.pc s.sched.currentTask = none ∧ s.sched.currentTask ∈ s.holders m then
      some { s with pc := Function.update s.pc s.sched.currentTask (some (m, .unlockGuard)) }
    else none
  | .act =>
    match s.pc s.sched.currentTask with
    | none => none
    | some (m, l) =>
      (lineStep (s.mutexes m) s.sched l).map fun (x, sched, next) =>
        { sched
          mutexes := Function.update s.mutexes m x
          pc := Function.update s.pc s.sched.currentTask (next.map fun l => (m, l))
          holders := Function.update s.holders m (l.holders s.sched.currentTask (s.holders m)) }
  | .tick => (yieldDecision s.sched).map fun sched => { s with sched }

/-- Several events in a row. -/
def run (s : State n M) : List (Event M) → Option (State n M)
  | [] => some s
  | e :: es => (step s e).bind fun s' => run s' es

/-- All mutexes initialised, and no task in the mutex code. -/
def initial (sched : Sched n) : State n M where
  sched := sched
  mutexes := fun _ => mutexInit
  pc := fun _ => none
  holders := fun _ => ∅

/-- The states of the runs that start with a running task. -/
inductive Reachable : State n M → Prop
  | initial (sched : Sched n) (hrunning : sched.taskStates sched.currentTask = .running) :
    Reachable (initial sched)
  | step {s s' : State n M} (e : Event M) (hs : Reachable s) (hstep : step s e = some s') :
    Reachable s'

variable {s s' : State n M} {m : M} {j : Fin n} {l : Line n}

/-- The states along a run are reachable. -/
theorem Reachable.run (hs : Reachable s) {es : List (Event M)} (h : run s es = some s') :
    Reachable s' := by
  induction es generalizing s with
  | nil =>
    obtain rfl := Option.some.inj h
    exact hs
  | cons e es ih =>
    rw [Sync.run, Option.bind_eq_some_iff] at h
    obtain ⟨t, hstep, hrun⟩ := h
    exact ih (hs.step e hstep) hrun

/-- Timer interrupts in a row hand the processor to any runnable task, so the tasks can follow
one another in any order. -/
theorem exists_ticks (s : State n M) (t : Fin n)
    (ht : taskIsRunnable s.sched.taskStates t = true) :
    ∃ k s', run s (List.replicate k .tick) = some s' ∧ s'.sched.currentTask = t ∧
      s'.mutexes = s.mutexes ∧ s'.pc = s.pc ∧ s'.holders = s.holders := by
  -- each interrupt makes the gap between the current task and `t` smaller
  induction hgap : CyclicScan.gap s.sched.currentTask t using Nat.strong_induction_on
    generalizing s with
  | _ g ih =>
    by_cases hcur : s.sched.currentTask = t
    · exact ⟨0, s, rfl, hcur, rfl, rfl, rfl⟩
    · obtain ⟨sched, hyield⟩ : ∃ sched, yieldDecision s.sched = some sched := by
        rw [← Option.ne_none_iff_exists', Ne, yieldDecision_eq_none]
        exact fun hnone => hnone t ht
      have hpick := (CyclicScan.scan_eq_some (yieldDecision_currentTask hyield)).2 t ht
      have hstep : step s .tick = some { s with sched } := by simp [step, hyield]
      by_cases hreached : sched.currentTask = t
      · exact ⟨1, { s with sched }, by simp [run, hstep], hreached, rfl, rfl, rfl⟩
      · have hless := CyclicScan.gap_lt_gap hpick hreached
        obtain ⟨k, s', hrun, hrest⟩ :=
          ih _ (hgap ▸ hless) { s with sched } (yieldDecision_runnable hyield ht) rfl
        exact ⟨k + 1, s', by rw [List.replicate_succ, run, hstep]; exact hrun, hrest⟩

/-- The line of a mutex that a place in the code is, if it is one. -/
def lineOf (m : M) : Option (M × Line n) → Option (Line n)
  | none => none
  | some (m', l) => if m' = m then some l else none

theorem lineOf_self (m : M) (next : Option (Line n)) :
    lineOf m (next.map fun l => (m, l)) = next := by
  cases next <;> simp [lineOf]

theorem lineOf_ne {m' : M} (h : m' ≠ m) (next : Option (Line n)) :
    lineOf m (next.map fun l => (m', l)) = none := by
  cases next <;> simp [lineOf, h]

theorem lineOf_eq_some {pc : Option (M × Line n)} : lineOf m pc = some l ↔ pc = some (m, l) := by
  rcases pc with - | ⟨m', l'⟩
  · simp [lineOf]
  · by_cases h : m' = m <;> simp [lineOf, h]

/-- The line of a mutex that each task is at. -/
def State.line (s : State n M) (m : M) : Fin n → Option (Line n) := lineOf m ∘ s.pc

theorem State.line_eq_some : s.line m j = some l ↔ s.pc j = some (m, l) := lineOf_eq_some

theorem State.line_eq_none (h : s.pc j = none) (m : M) : s.line m j = none := by
  simp [State.line, lineOf, h]

/-- What a step does to one mutex and to the tasks at its lines, seen from that mutex: nothing,
a call by the current task, or a line of the current task. -/
inductive Seen (s s' : State n M) (e : Event M) (m : M) : Prop
  /-- The step does nothing to the mutex. -/
  | idle (hmutex : s'.mutexes m = s.mutexes m) (hholders : s'.holders m = s.holders m)
    (hline : s'.line m = s.line m)
  /-- `mutex_lock` is called. -/
  | lock (hcall : e = .lock m) (hmutex : s'.mutexes m = s.mutexes m)
    (hholders : s'.holders m = s.holders m)
    (hout : s.pc s.sched.currentTask = none)
    (hline : s'.line m = Function.update (s.line m) s.sched.currentTask (some .lockGuard))
  /-- `mutex_unlock` is called. -/
  | unlock (hcall : e = .unlock m) (hmutex : s'.mutexes m = s.mutexes m)
    (hholders : s'.holders m = s.holders m)
    (hout : s.pc s.sched.currentTask = none) (hheld : s.sched.currentTask ∈ s.holders m)
    (hline : s'.line m = Function.update (s.line m) s.sched.currentTask (some .unlockGuard))
  /-- A line is run. -/
  | line (l : Line n) (x : Mutex) (sched : Sched n) (next : Option (Line n)) (hact : e = .act)
    (hat : s.line m s.sched.currentTask = some l)
    (hrun : lineStep (s.mutexes m) s.sched l = some (x, sched, next))
    (hsched : s'.sched = sched) (hmutex : s'.mutexes m = x)
    (hholders : s'.holders m = l.holders s.sched.currentTask (s.holders m))
    (hline : s'.line m = Function.update (s.line m) s.sched.currentTask next)

/-- The lines of a mutex after one task has moved. -/
theorem line_update {pc : Option (M × Line n)} {i : Fin n}
    (h : s'.pc = Function.update s.pc i pc) (m : M) :
    s'.line m = Function.update (s.line m) i (lineOf m pc) := by
  rw [State.line, h, Function.comp_update, State.line]

/-- A task that moves between places that are not lines of `m`. -/
theorem line_update_other {pc : Option (M × Line n)} {i : Fin n}
    (h : s'.pc = Function.update s.pc i pc) (hold : s.line m i = none)
    (hnew : lineOf m pc = none) : s'.line m = s.line m := by
  rw [line_update h, hnew, ← hold, Function.update_eq_self]

theorem step_seen {e : Event M} (h : step s e = some s') (m : M) : Seen s s' e m := by
  cases e with
  | lock m' =>
    simp only [step] at h
    split_ifs at h with hout
    obtain rfl := Option.some.inj h
    -- the caller is at no line yet, and now at the first one
    have hnone := State.line_eq_none hout m
    by_cases hm : m' = m
    · subst hm
      exact .lock rfl rfl rfl hout ((line_update rfl m').trans (by simp [lineOf]))
    · exact .idle rfl rfl (line_update_other rfl hnone (by simp [lineOf, hm]))
  | unlock m' =>
    simp only [step] at h
    split_ifs at h with hout
    obtain rfl := Option.some.inj h
    have hnone := State.line_eq_none hout.1 m
    by_cases hm : m' = m
    · subst hm
      exact .unlock rfl rfl rfl hout.1 hout.2 ((line_update rfl m').trans (by simp [lineOf]))
    · exact .idle rfl rfl (line_update_other rfl hnone (by simp [lineOf, hm]))
  | act =>
    simp only [step] at h
    cases hpc : s.pc s.sched.currentTask with
    | none => simp [hpc] at h
    | some p =>
      obtain ⟨m', l⟩ := p
      simp only [hpc, Option.map_eq_some_iff] at h
      obtain ⟨⟨x, sched, next⟩, hrun, rfl⟩ := h
      by_cases hm : m' = m
      · subst hm
        refine .line l x sched next rfl (State.line_eq_some.mpr hpc) hrun rfl (by simp) (by simp) ?_
        exact (line_update rfl m').trans (by rw [lineOf_self])
      · -- another mutex
        have hnone : s.line m s.sched.currentTask = none := by simp [State.line, lineOf, hpc, hm]
        exact .idle (by simp [Ne.symm hm]) (by simp [Ne.symm hm])
          (line_update_other rfl hnone (lineOf_ne hm next))
  | tick =>
    simp only [step, Option.map_eq_some_iff] at h
    -- a switch moves nobody to another line
    obtain ⟨sched, -, rfl⟩ := h
    exact .idle rfl rfl rfl

end RiscvKernel.Sync
