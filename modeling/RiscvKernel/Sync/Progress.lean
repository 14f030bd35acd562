import Mathlib.Data.Fintype.Basic
import RiscvKernel.Lib.Simulation
import RiscvKernel.Sync.WakeUp

/-!
# Progress under the mutex

A wake-up can be lost, but this does not stop the tasks for good: the task that unlocks a mutex
last stays awake, and whoever locks one afterwards holds it awake. So the scheduler always finds a
task to run, as long as no task waits for a mutex while it holds one.

* `Alert`: the current task, and every task that has taken a guard, can run.
* `Lively`: some task will not go to sleep before it has held a mutex.
* `guard_released`: a guard is taken for a few lines only.
* `mutex_never_halts`: without nested locks the scheduler never halts.
-/

namespace RiscvKernel.Sync

open Function Simulation

variable {n : ℕ} {M : Type*} {s s' : State n M} {m : M} {e : Event M} {i : Fin n} {l l' : Line n}
  {x x' : Mutex} {sched sched' : Sched n} {next : Option (Line n)}

/-! ### Tasks that can run -/

/-- The task can be chosen by the scheduler. -/
def Runs (s : State n M) (i : Fin n) : Prop := taskIsRunnable s.sched.taskStates i = true

theorem taskIsRunnable_congr {states states' : Fin n → TaskState} (h : states' i = states i) :
    taskIsRunnable states' i = taskIsRunnable states i := by
  rw [taskIsRunnable, taskIsRunnable, h]

theorem yieldDecision_current (h : yieldDecision sched = some sched') :
    taskIsRunnable sched'.taskStates sched'.currentTask = true := by
  rcases yieldDecision_cases h with ⟨rfl, hrun⟩ | ⟨next, -, -, rfl⟩
  · exact hrun
  · rw [taskIsRunnable_iff]
    exact Or.inr (schedPrepareSwitch_next next sched)

/-- A task can run until it marks itself sleeping. -/
theorem lineStep_runnable (hrun : lineStep x sched l = some (x', sched', next))
    (hi : taskIsRunnable sched.taskStates i = true)
    (hmark : l = .sleepMark → i ≠ sched.currentTask) :
    taskIsRunnable sched'.taskStates i = true := by
  cases l with
  | sleepYield =>
    obtain ⟨hyield, -, -⟩ := by simpa [lineStep] using hrun
    exact yieldDecision_runnable hyield hi
  | sleepMark =>
    -- it is another task that marks itself
    obtain ⟨-, rfl, -⟩ := by simpa [lineStep] using hrun
    rwa [taskIsRunnable_congr (update_of_ne (hmark rfl) _ _)]
  | wakeWrite k =>
    obtain ⟨-, rfl, -⟩ := by simpa [lineStep] using hrun
    -- waking a task only makes it ready
    by_cases hik : i = k
    · subst hik
      rw [taskIsRunnable_iff]
      exact Or.inl (update_self _ _ _)
    · rwa [taskIsRunnable_congr (update_of_ne hik _ _)]
  | _ =>
    obtain ⟨-, rfl, -⟩ := by simpa [lineStep] using hrun
    exact hi

/-- The current task can run, unless it has just marked itself sleeping; and so can every task that
has taken a guard. -/
structure Alert (s : State n M) : Prop where
  current : Runs s s.sched.currentTask ∨ ∃ m, s.pc s.sched.currentTask = some (m, .sleepYield)
  guarded : ∀ i m l, s.pc i = some (m, l) → l.inGuard = true → Runs s i

theorem Alert.runs (h : Alert s) (hpc : s.pc s.sched.currentTask = some (m, l))
    (hl : l ≠ .sleepYield) : Runs s s.sched.currentTask := by
  refine h.current.resolve_right ?_
  rintro ⟨m', hm'⟩
  rw [hpc] at hm'
  exact hl (Prod.mk.inj (Option.some.inj hm')).2

theorem Alert.runs_of_none (h : Alert s) (hpc : s.pc s.sched.currentTask = none) :
    Runs s s.sched.currentTask := by
  refine h.current.resolve_right ?_
  rintro ⟨m', hm'⟩
  rw [hpc] at hm'
  cases hm'

/-- A call leaves the current task able to run, at a line without the guard. -/
theorem Alert.call (h : Alert s) (hout : s.pc s.sched.currentTask = none)
    (hl : l.inGuard = false) :
    Alert { s with pc := update s.pc s.sched.currentTask (some (m, l)) } := by
  refine ⟨Or.inl (h.runs_of_none hout), fun i m' l' hpc hguard => ?_⟩
  by_cases hi : i = s.sched.currentTask
  · subst hi
    obtain ⟨-, rfl⟩ := by simpa using hpc
    rw [hl] at hguard
    cases hguard
  · exact h.guarded i m' l' ((update_of_ne hi _ _).symm.trans hpc) hguard

/-! ### Steps -/

variable [DecidableEq M]

/-- What a step does. -/
inductive Stepped (s : State n M) : Event M → State n M → Prop
  | lock (m : M) (hout : s.pc s.sched.currentTask = none) :
    Stepped s (.lock m)
      { s with pc := update s.pc s.sched.currentTask (some (m, .lockGuard)) }
  | unlock (m : M) (hout : s.pc s.sched.currentTask = none)
    (hheld : s.sched.currentTask ∈ s.holders m) :
    Stepped s (.unlock m)
      { s with pc := update s.pc s.sched.currentTask (some (m, .unlockGuard)) }
  | act {m : M} {l : Line n} {x : Mutex} {sched : Sched n} {next : Option (Line n)}
    (hpc : s.pc s.sched.currentTask = some (m, l))
    (hrun : lineStep (s.mutexes m) s.sched l = some (x, sched, next)) :
    Stepped s .act
      { sched
        mutexes := update s.mutexes m x
        pc := update s.pc s.sched.currentTask (next.map fun l => (m, l))
        holders := update s.holders m (l.holders s.sched.currentTask (s.holders m)) }
  | tick {sched : Sched n} (hyield : yieldDecision s.sched = some sched) :
    Stepped s .tick { s with sched }

theorem stepped_of_step (h : step s e = some s') : Stepped s e s' := by
  cases e with
  | lock m =>
    simp only [step] at h
    split_ifs at h with hout
    obtain rfl := Option.some.inj h
    exact .lock m hout
  | unlock m =>
    simp only [step] at h
    split_ifs at h with hout
    obtain rfl := Option.some.inj h
    exact .unlock m hout.1 hout.2
  | act =>
    simp only [step] at h
    cases hpc : s.pc s.sched.currentTask with
    | none => simp [hpc] at h
    | some p =>
      obtain ⟨m, l⟩ := p
      simp only [hpc, Option.map_eq_some_iff] at h
      obtain ⟨⟨x, sched, next⟩, hrun, rfl⟩ := h
      exact .act hpc hrun
  | tick =>
    simp only [step, Option.map_eq_some_iff] at h
    obtain ⟨sched, hyield, rfl⟩ := h
    exact .tick hyield

theorem Alert.step (h : Alert s) (hstep : step s e = some s') : Alert s' := by
  cases stepped_of_step hstep with
  | lock m hout => exact h.call hout rfl
  | unlock m hout => exact h.call hout rfl
  | tick hyield =>
    exact ⟨Or.inl (yieldDecision_current hyield), fun i m l hpc hguard =>
      yieldDecision_runnable hyield (h.guarded i m l hpc hguard)⟩
  | @act m l x sched next hpc hrun =>
    obtain ⟨-, hcurrent, -⟩ := lineStep_sched hrun
    constructor
    · by_cases hyield : l = .sleepYield
      · subst hyield
        obtain ⟨hyield, -, -⟩ := by simpa [lineStep] using hrun
        exact Or.inl (yieldDecision_current hyield)
      · have hruns := h.runs hpc hyield
        by_cases hmark : l = .sleepMark
        · subst hmark
          obtain ⟨-, rfl, rfl⟩ := by simpa [lineStep] using hrun
          exact Or.inr ⟨m, update_self _ _ _⟩
        · refine Or.inl ?_
          rw [Runs, hcurrent hyield]
          exact lineStep_runnable hrun hruns fun hl => absurd hl hmark
    · intro i m' l' hpc' hguard
      by_cases hi : i = s.sched.currentTask
      · subst hi
        obtain ⟨l₁, rfl, -, rfl⟩ : ∃ l₁, next = some l₁ ∧ m = m' ∧ l₁ = l' := by
          simpa using hpc'
        -- the lines after these two do not have the guard
        have hyield : l ≠ .sleepYield := by
          rintro rfl
          obtain ⟨-, -, rfl⟩ := by simpa [lineStep] using hrun
          cases hguard
        have hmark : l ≠ .sleepMark := by
          rintro rfl
          obtain ⟨-, -, rfl⟩ := by simpa [lineStep] using hrun
          cases hguard
        exact lineStep_runnable hrun (h.runs hpc hyield) fun hl => absurd hl hmark
      · have hpc₀ : s.pc i = some (m', l') := (update_of_ne hi _ _).symm.trans hpc'
        exact lineStep_runnable hrun (h.guarded i m' l' hpc₀ hguard) fun _ => hi

theorem Reachable.alert (hs : Reachable s) : Alert s := by
  induction hs with
  | initial sched hrunning =>
    refine ⟨Or.inl ?_, nofun⟩
    rw [Runs, taskIsRunnable_iff]
    exact Or.inr hrunning
  | step e _ hstep ih => exact ih.step hstep

/-! ### The guard -/

/-- The number of lines up to the release of the guard, at most. -/
def Line.left : Line n → ℕ
  | .lockRead => 4
  | .lockTake => 3
  | .lockOwn => 2
  | .unlockClear => 2 * n + 3
  | .unlockDisown => 2 * n + 2
  | .wakeRead i => 2 * (n - i) + 1
  | .wakeWrite i => 2 * (n - i)
  | _ => 1

theorem left_pos (l : Line n) : 0 < l.left := by
  cases l with
  | wakeWrite i =>
    have := i.isLt
    rw [Line.left]
    omega
  | _ => simp [Line.left]

theorem left_le (l : Line n) : l.left ≤ 2 * n + 4 := by
  cases l <;> simp only [Line.left] <;> omega

theorem left_wakeLoop (k : ℕ) :
    (wakeLoop (n := n) k).inGuard = true ∧ (wakeLoop (n := n) k).left ≤ 2 * (n - k) + 1 := by
  rw [wakeLoop]
  split_ifs with hk
  · exact ⟨rfl, le_rfl⟩
  · exact ⟨rfl, Nat.le_add_left 1 _⟩

/-- A line with the guard is followed by one that has fewer left, or releases the guard. -/
theorem lineStep_left (hrun : lineStep x sched l = some (x', sched', next))
    (hl : l.inGuard = true) :
    (∃ l', next = some l' ∧ l'.inGuard = true ∧ l'.left < l.left) ∨ x'.guard = 0 := by
  cases l with
  | lockGuard => cases hl
  | sleepMark => cases hl
  | sleepYield => cases hl
  | unlockGuard => cases hl
  | lockRead =>
    obtain ⟨-, -, rfl⟩ := by simpa [lineStep] using hrun
    refine Or.inl ⟨_, rfl, ?_⟩
    split_ifs
    · exact ⟨rfl, by simp [Line.left]⟩
    · exact ⟨rfl, by simp [Line.left]⟩
  | lockTake =>
    obtain ⟨-, -, rfl⟩ := by simpa [lineStep] using hrun
    exact Or.inl ⟨_, rfl, rfl, by simp [Line.left]⟩
  | lockOwn =>
    obtain ⟨-, -, rfl⟩ := by simpa [lineStep] using hrun
    exact Or.inl ⟨_, rfl, rfl, by simp [Line.left]⟩
  | unlockClear =>
    obtain ⟨-, -, rfl⟩ := by simpa [lineStep] using hrun
    exact Or.inl ⟨_, rfl, rfl, by simp [Line.left]⟩
  | unlockDisown =>
    obtain ⟨-, -, rfl⟩ := by simpa [lineStep] using hrun
    obtain ⟨hguard, hle⟩ := left_wakeLoop (n := n) 0
    exact Or.inl ⟨_, rfl, hguard, by rw [Line.left]; omega⟩
  | wakeRead k =>
    obtain ⟨-, -, rfl⟩ := by simpa [lineStep] using hrun
    refine Or.inl ⟨_, rfl, ?_⟩
    have hk := k.isLt
    split_ifs
    · exact ⟨rfl, by simp [Line.left]⟩
    · obtain ⟨hguard, hle⟩ := left_wakeLoop (n := n) (k + 1)
      exact ⟨hguard, by rw [Line.left]; omega⟩
  | wakeWrite k =>
    obtain ⟨-, -, rfl⟩ := by simpa [lineStep] using hrun
    have hk := k.isLt
    obtain ⟨hguard, hle⟩ := left_wakeLoop (n := n) (k + 1)
    exact Or.inl ⟨_, rfl, hguard, by rw [Line.left]; omega⟩
  | _ =>
    -- the guard is released
    obtain ⟨rfl, -, -⟩ := by simpa [lineStep] using hrun
    exact Or.inr rfl

/-- A step of a run in which the guard of `m` stays taken, with the task that makes it. -/
def HeldStep (m : M) (s : State n M) (a : Fin n × Event M) (s' : State n M) : Prop :=
  a.1 = s.sched.currentTask ∧ step s a.2 = some s' ∧ (s'.mutexes m).guard ≠ 0

/-- Task `i` has the guard of `m`. -/
def AtGuard (s : State n M) (m : M) (i : Fin n) : Prop :=
  ∃ l, s.pc i = some (m, l) ∧ l.inGuard = true

/-- The lines that task `i` has left up to the release of a guard, if it has taken one. -/
def guardLeft (s : State n M) (i : Fin n) : ℕ := (s.pc i).elim 0 fun p => p.2.left

omit [DecidableEq M] in
theorem guardLeft_eq (hpc : s.pc i = some (m, l)) : guardLeft s i = l.left := by
  rw [guardLeft, hpc, Option.elim_some]

/-- The task that has the guard of `m` keeps it, and its own lines bring it closer to the end. -/
theorem HeldStep.spec {a : Fin n × Event M} (h : HeldStep m s a s') (hi : AtGuard s m i) :
    AtGuard s' m i ∧ guardLeft s' i ≤ guardLeft s i ∧
      (a.1 = i → a.2 = .act → guardLeft s' i < guardLeft s i) := by
  obtain ⟨l, hpc, hguard⟩ := hi
  obtain ⟨hfirst, hstep, hheld⟩ := h
  obtain ⟨first, e⟩ := a
  obtain rfl : first = s.sched.currentTask := hfirst
  -- a step of another task, or one that runs no line, leaves the task where it is
  have hkept : s'.pc i = s.pc i → AtGuard s' m i ∧ guardLeft s' i ≤ guardLeft s i := by
    intro heq
    refine ⟨⟨l, heq.trans hpc, hguard⟩, ?_⟩
    rw [guardLeft_eq hpc, guardLeft_eq (heq.trans hpc)]
  -- a task that has the guard calls nothing
  have hcall : s.pc s.sched.currentTask = none → i ≠ s.sched.currentTask := by
    rintro hout rfl
    rw [hpc] at hout
    cases hout
  cases stepped_of_step hstep with
  | lock m' hout => exact and_assoc.mp ⟨hkept (update_of_ne (hcall hout) _ _), nofun⟩
  | unlock m' hout => exact and_assoc.mp ⟨hkept (update_of_ne (hcall hout) _ _), nofun⟩
  | tick => exact and_assoc.mp ⟨hkept rfl, nofun⟩
  | @act m' l' x sched next hpc' hrun =>
    by_cases hi : i = s.sched.currentTask
    · subst hi
      obtain ⟨rfl, rfl⟩ : m' = m ∧ l' = l := by
        rw [hpc] at hpc'
        obtain ⟨rfl, rfl⟩ := Prod.mk.inj (Option.some.inj hpc')
        exact ⟨rfl, rfl⟩
      have hx : x.guard ≠ 0 := by simpa using hheld
      obtain ⟨l₁, rfl, hguard₁, hless⟩ := (lineStep_left hrun hguard).resolve_right hx
      rw [guardLeft_eq hpc, guardLeft_eq (update_self _ _ _)]
      exact ⟨⟨l₁, update_self _ _ _, hguard₁⟩, hless.le, fun _ _ => hless⟩
    · exact and_assoc.mp ⟨hkept (update_of_ne hi _ _), fun hcur => absurd hcur.symm hi⟩

/-- The step is a line that task `i` runs. -/
def ownLine (i : Fin n) (a : Fin n × Event M) : Bool := a.1 == i && a.2 matches .act

theorem HeldStep.own {a : Fin n × Event M} (h : HeldStep m s a s') (hi : AtGuard s m i)
    (hown : ownLine i a = true) : guardLeft s' i < guardLeft s i := by
  obtain ⟨first, e⟩ := a
  rw [ownLine, Bool.and_eq_true, beq_iff_eq] at hown
  cases e with
  | act => exact (h.spec hi).2.2 hown.1 rfl
  | _ => cases hown.2

/-- When the guard of a mutex is taken, a task has it; and however the tasks are interrupted
meanwhile, this task can run all the time, and the guard is free before the task has run
`2 * n + 4` more lines. -/
theorem guard_released (hs : Reachable s) (htaken : (s.mutexes m).guard ≠ 0) :
    ∃ i, ∀ as s', Path (HeldStep m) s as s' →
      AtGuard s' m i ∧ Runs s' i ∧ as.countP (ownLine i) < 2 * n + 4 := by
  -- the guard is a token, which somebody has if it is not free
  obtain ⟨i, hi⟩ := (reachable_mutexOk hs m).guard.token.not_free_iff.mp htaken
  obtain ⟨l, hline, hguard⟩ : ∃ l, s.line m i = some l ∧ l.inGuard = true := by
    rwa [guarded, Option.any_eq_true] at hi
  have hat : AtGuard s m i := ⟨l, State.line_eq_some.mp hline, hguard⟩
  refine ⟨i, fun as s' hpath => ?_⟩
  have hkeep : ∀ (s : State n M) a s', Reachable s ∧ AtGuard s m i → HeldStep m s a s' →
      Reachable s' ∧ AtGuard s' m i :=
    fun _ _ _ h hstep => ⟨h.1.step _ hstep.2.1, (hstep.spec h.2).1⟩
  obtain ⟨hs', l', hpc', hguard'⟩ := hpath.invariant (P := fun s => Reachable s ∧ AtGuard s m i)
    hkeep ⟨hs, hat⟩
  -- the lines that are left are the measure: no step adds to them, and its own lines use them up
  have hcount := hpath.countP_add_le (p := ownLine i) hkeep
    (fun _ _ _ h hstep => (hstep.spec h.2).2.1) (fun _ _ _ h hstep hown => hstep.own h.2 hown)
    ⟨hs, hat⟩
  rw [guardLeft_eq hat.choose_spec.1, guardLeft_eq hpc'] at hcount
  have hle := left_le hat.choose
  have hpos := left_pos l'
  exact ⟨⟨l', hpc', hguard'⟩, hs'.alert.guarded i m l' hpc' hguard', by omega⟩

/-- Task 0 of two has just taken the guard. -/
theorem guard_released_two : ∃ s : State 2 Unit, Reachable s ∧ (s.mutexes ()).guard = 1 ∧
    ∃ i, ∀ as s', Path (HeldStep ()) s as s' →
      AtGuard s' () i ∧ Runs s' i ∧ as.countP (ownLine i) < 8 := by
  obtain ⟨s, hrun, hguard⟩ : ∃ s, run twoTasks [.lock (), .act] = some s ∧
      (s.mutexes ()).guard = 1 := ⟨_, rfl, rfl⟩
  have hs : Reachable s := Reachable.run (.initial _ rfl) hrun
  exact ⟨s, hs, hguard, guard_released hs (by rw [hguard]; decide)⟩

/-! ### The mutexes -/

/-- The lines of `mutex_lock` up to the write that takes the mutex. -/
def Line.waits : Line n → Bool
  | .lockGuard | .lockRead | .lockTake | .sleepRelease | .sleepMark | .sleepYield => true
  | _ => false

/-- The lines at which a task has found the mutex locked and has not marked itself yet. -/
def Line.givesUp : Line n → Bool
  | .sleepRelease | .sleepMark => true
  | _ => false

/-- No task calls `mutex_lock` while it holds a mutex. -/
def Flat (s : State n M) : Event M → Prop
  | .lock _ => ∀ m, s.sched.currentTask ∉ s.holders m
  | _ => True

instance [Fintype M] (s : State n M) (e : Event M) : Decidable (Flat s e) :=
  match e with
  | .lock _ => inferInstanceAs (Decidable (∀ _, _))
  | .unlock _ | .act | .tick => inferInstanceAs (Decidable True)

/-- Who holds a mutex can run and does not wait for another one; and some task either holds a mutex
or can run and has not given up on one. -/
structure Lively (s : State n M) : Prop where
  holder : ∀ m, ∀ i ∈ s.holders m, Runs s i ∧ ∀ m' l, s.pc i = some (m', l) → l.waits = false
  someone : (∃ m i, i ∈ s.holders m) ∨
    ∃ i, Runs s i ∧ ∀ m l, s.pc i = some (m, l) → l.givesUp = false

theorem wakeLoop_waits (k : ℕ) :
    (wakeLoop (n := n) k).waits = false ∧ (wakeLoop (n := n) k).givesUp = false := by
  rw [wakeLoop]
  split_ifs
  · exact ⟨rfl, rfl⟩
  · exact ⟨rfl, rfl⟩

/-- Behind the write that takes the mutex a task does not wait. -/
theorem lineStep_waits (hrun : lineStep x sched l = some (x', sched', some l'))
    (hl : l.waits = true → l = .lockTake) : l'.waits = false := by
  cases l with
  | lockTake =>
    obtain ⟨-, -, rfl⟩ := by simpa [lineStep] using hrun
    rfl
  | lockOwn =>
    obtain ⟨-, -, rfl⟩ := by simpa [lineStep] using hrun
    rfl
  | unlockGuard =>
    obtain ⟨-, -, rfl⟩ := by simpa [lineStep] using hrun
    split_ifs <;> rfl
  | unlockClear =>
    obtain ⟨-, -, rfl⟩ := by simpa [lineStep] using hrun
    rfl
  | unlockDisown =>
    obtain ⟨-, -, rfl⟩ := by simpa [lineStep] using hrun
    exact (wakeLoop_waits 0).1
  | wakeRead k =>
    obtain ⟨-, -, rfl⟩ := by simpa [lineStep] using hrun
    split_ifs
    · rfl
    · exact (wakeLoop_waits _).1
  | wakeWrite k =>
    obtain ⟨-, -, rfl⟩ := by simpa [lineStep] using hrun
    exact (wakeLoop_waits _).1
  | lockRelease => cases hrun
  | unlockRelease => cases hrun
  -- the other lines wait
  | _ => cases hl rfl

theorem waits_of_givesUp (h : l.givesUp = true) : l.waits = true := by
  cases l with
  | sleepRelease => rfl
  | sleepMark => rfl
  | _ => cases h

/-- A task gives up only when it has found the mutex locked. -/
theorem lineStep_givesUp (hrun : lineStep x sched l = some (x', sched', some l'))
    (hl : l.givesUp = false) (hl' : l'.givesUp = true) : l = .lockRead ∧ x.locked ≠ 0 := by
  have hwaits : l.waits = true ∧ l ≠ .lockTake := by
    -- behind a line that does not wait, or that takes the mutex, nobody gives up
    by_contra hnot
    have hwaits' := lineStep_waits hrun fun h => not_not.mp fun hne => hnot ⟨h, hne⟩
    rw [waits_of_givesUp hl'] at hwaits'
    cases hwaits'
  cases l with
  | lockGuard =>
    obtain ⟨-, -, rfl⟩ := by simpa [lineStep] using hrun
    split_ifs at hl' <;> cases hl'
  | lockRead =>
    obtain ⟨-, -, rfl⟩ := by simpa [lineStep] using hrun
    by_cases hfree : x.locked = 0
    · rw [if_pos hfree] at hl'
      cases hl'
    · exact ⟨rfl, hfree⟩
  | sleepYield =>
    obtain ⟨-, -, rfl⟩ := by simpa [lineStep] using hrun
    cases hl'
  | lockTake => exact absurd rfl hwaits.2
  | sleepRelease => cases hl
  | sleepMark => cases hl
  | _ => cases hwaits.1

/-- Only one line makes a task a holder. -/
theorem mem_holders {holders : Finset (Fin n)} {k : Fin n} (h : i ∈ l.holders k holders) :
    i ∈ holders ∨ (l = .lockTake ∧ i = k) := by
  cases l with
  | lockTake => exact (Finset.mem_insert.mp h).symm.imp id fun hi => ⟨rfl, hi⟩
  | unlockClear => exact Or.inl (Finset.mem_of_mem_erase h)
  | _ => exact Or.inl h

/-- Only one line makes a task a holder no more. -/
theorem mem_holders_of_mem {holders : Finset (Fin n)} {k : Fin n} (h : i ∈ holders) :
    i ∈ l.holders k holders ∨ (l = .unlockClear ∧ i = k) := by
  cases l with
  | lockTake => exact Or.inl (Finset.mem_insert_of_mem h)
  | unlockClear =>
    by_cases hi : i = k
    · exact Or.inr ⟨rfl, hi⟩
    · exact Or.inl (Finset.mem_erase_of_ne_of_mem hi h)
  | _ => exact Or.inl h

omit [DecidableEq M] in
/-- A call changes nobody's chances. -/
theorem Lively.call (h : Lively s)
    (hl : l.waits = true → ∀ m, s.sched.currentTask ∉ s.holders m) (hgives : l.givesUp = false) :
    Lively { s with pc := update s.pc s.sched.currentTask (some (m, l)) } := by
  constructor
  · intro m₁ i hi
    obtain ⟨hruns, hwaits⟩ := h.holder m₁ i hi
    refine ⟨hruns, fun m' l' hpc => ?_⟩
    by_cases hcur : i = s.sched.currentTask
    · subst hcur
      obtain ⟨-, rfl⟩ : m = m' ∧ l = l' := by simpa using hpc
      exact Bool.eq_false_iff.mpr fun hw => hl hw m₁ hi
    · exact hwaits m' l' ((update_of_ne hcur _ _).symm.trans hpc)
  · refine h.someone.imp id ?_
    rintro ⟨i, hruns, hi⟩
    refine ⟨i, hruns, fun m' l' hpc => ?_⟩
    by_cases hcur : i = s.sched.currentTask
    · subst hcur
      obtain ⟨-, rfl⟩ : m = m' ∧ l = l' := by simpa using hpc
      exact hgives
    · exact hi m' l' ((update_of_ne hcur _ _).symm.trans hpc)

/-- Who holds a mutex after a line has held it before, and does not wait, or has just taken it. -/
theorem Lively.holder_act (h : Lively s) (hs : Reachable s) (hstep : step s .act = some s') (m₁ : M)
    (hi : i ∈ s'.holders m₁) : Runs s' i ∧ ∀ m' l, s'.pc i = some (m', l) → l.waits = false := by
  cases stepped_of_step hstep with
  | @act m l x sched next hpc hrun =>
    have hi' : i ∈ s.holders m₁ ∨ (l = .lockTake ∧ i = s.sched.currentTask) := by
      by_cases hm : m₁ = m
      · subst hm
        exact mem_holders (by simpa using hi)
      · exact Or.inl (by simpa [hm] using hi)
    rcases hi' with hmem | ⟨rfl, rfl⟩
    · obtain ⟨hi, hwaits⟩ := h.holder m₁ i hmem
      refine ⟨lineStep_runnable hrun hi ?_, fun m' l' hpc' => ?_⟩
      · -- only a task that waits marks itself
        rintro rfl rfl
        cases hwaits m _ hpc
      · by_cases hcur : i = s.sched.currentTask
        · subst hcur
          obtain ⟨rfl, -⟩ : next = some l' ∧ m = m' := by simpa using hpc'
          refine lineStep_waits hrun fun hw => ?_
          rw [hwaits m l hpc] at hw
          cases hw
        · exact hwaits m' l' ((update_of_ne hcur _ _).symm.trans hpc')
    · -- the task has just taken the mutex
      refine ⟨lineStep_runnable hrun (hs.alert.runs hpc nofun) nofun, fun m' l' hpc' => ?_⟩
      obtain ⟨rfl, -⟩ : next = some l' ∧ m = m' := by simpa using hpc'
      exact lineStep_waits hrun fun _ => rfl

/-- After a line some task still holds a mutex, or has just freed the last one, or all were free and
a task that had not given up has not done so now. -/
theorem Lively.someone_act (h : Lively s) (hs : Reachable s) (hstep : step s .act = some s') :
    (∃ m i, i ∈ s'.holders m) ∨
      ∃ i, Runs s' i ∧ ∀ m l, s'.pc i = some (m, l) → l.givesUp = false := by
  cases stepped_of_step hstep with
  | @act m l x sched next hpc hrun =>
    by_cases hheld : ∃ m₁ i, i ∈ s.holders m₁
    · obtain ⟨m₁, i, hi⟩ := hheld
      by_cases hm : m₁ = m
      · subst hm
        rcases mem_holders_of_mem (l := l) (k := s.sched.currentTask) hi with hmem | ⟨rfl, rfl⟩
        · exact Or.inl ⟨m₁, i, by simpa using hmem⟩
        · -- the task has just freed the mutex, and goes on to wake the others
          have hruns := lineStep_runnable hrun (h.holder m₁ _ hi).1 nofun
          refine Or.inr ⟨_, hruns, fun m' l' hpc' => ?_⟩
          obtain ⟨-, -, rfl⟩ := by simpa [lineStep] using hrun
          obtain ⟨-, rfl⟩ : m₁ = m' ∧ .unlockDisown = l' := by simpa using hpc'
          rfl
      · -- a line of another mutex changes no holder of this one
        exact Or.inl ⟨m₁, i, by simpa [hm] using hi⟩
    · -- all mutexes are free, so the task that reads `locked` finds it so
      obtain ⟨i, hi, hgives⟩ := h.someone.resolve_left hheld
      refine Or.inr ⟨i, lineStep_runnable hrun hi ?_, fun m' l' hpc' => ?_⟩
      · rintro rfl rfl
        cases hgives m _ hpc
      · by_cases hcur : i = s.sched.currentTask
        · subst hcur
          obtain ⟨rfl, -⟩ : next = some l' ∧ m = m' := by simpa using hpc'
          by_contra hnot
          obtain ⟨-, hlocked⟩ := lineStep_givesUp hrun (hgives m l hpc)
            (Bool.not_eq_false _ ▸ hnot)
          have hholder := (reachable_mutexOk hs m).locked.token.not_free_iff.mp hlocked
          exact hheld ⟨m, hholder⟩
        · exact hgives m' l' ((update_of_ne hcur _ _).symm.trans hpc')

theorem Lively.step (h : Lively s) (hs : Reachable s) (hflat : Flat s e)
    (hstep : step s e = some s') : Lively s' := by
  cases stepped_of_step hstep with
  | lock m => exact h.call (fun _ => hflat) rfl
  | unlock m => exact h.call nofun rfl
  | tick hyield =>
    refine ⟨fun m i hi => ?_, h.someone.imp id ?_⟩
    · exact ⟨yieldDecision_runnable hyield (h.holder m i hi).1, (h.holder m i hi).2⟩
    · rintro ⟨i, hruns, hi⟩
      exact ⟨i, yieldDecision_runnable hyield hruns, hi⟩
  | act => exact ⟨fun m i hi => h.holder_act hs hstep m hi, h.someone_act hs hstep⟩

/-- A step of a run in which no task calls `mutex_lock` while it holds a mutex. -/
def FlatStep (s : State n M) (e : Event M) (s' : State n M) : Prop := Flat s e ∧ step s e = some s'

/-- Without nested locks `task_yield` never halts, whatever wake-ups are lost: either a task that
holds a mutex can run, and does not wait for another one, or all mutexes are free and some task can
run that has not given up on one. -/
theorem mutex_never_halts {sched : Sched n} {es : List (Event M)}
    (hrunning : sched.taskStates sched.currentTask = .running)
    (hpath : Path FlatStep (initial sched) es s) :
    yieldDecision s.sched ≠ none ∧
      ((∃ m, ∃ i ∈ s.holders m, Runs s i ∧ ∀ m' l, s.pc i = some (m', l) → l.waits = false) ∨
        (∀ m, (s.mutexes m).locked = 0) ∧
          ∃ i, Runs s i ∧ ∀ m l, s.pc i = some (m, l) → l.givesUp = false) := by
  have hstart : Reachable (initial sched : State n M) := .initial sched hrunning
  -- at first no mutex is held, and the current task has not asked for one
  have hlively : Lively (initial sched : State n M) := by
    refine ⟨by simp [initial], Or.inr ⟨sched.currentTask, ?_, nofun⟩⟩
    rw [Runs, taskIsRunnable_iff]
    exact Or.inr hrunning
  obtain ⟨hs, h⟩ := hpath.invariant (P := fun s => Reachable s ∧ Lively s)
    (fun _ _ _ h hstep => ⟨h.1.step _ hstep.2, h.2.step h.1 hstep.1 hstep.2⟩) ⟨hstart, hlively⟩
  have hsome : ∃ i, Runs s i := by
    rcases h.someone with ⟨m, i, hi⟩ | ⟨i, hi, -⟩
    · exact ⟨i, (h.holder m i hi).1⟩
    · exact ⟨i, hi⟩
  refine ⟨fun hnone => ?_, ?_⟩
  · obtain ⟨i, hi⟩ := hsome
    exact (yieldDecision_eq_none _).mp hnone i hi
  · by_cases hheld : ∃ m i, i ∈ s.holders m
    · obtain ⟨m, i, hi⟩ := hheld
      exact Or.inl ⟨m, i, hi, h.holder m i hi⟩
    · refine Or.inr ⟨fun m => ?_, h.someone.resolve_left hheld⟩
      exact (reachable_mutexOk hs m).locked.token.free_iff.mpr fun i hi => hheld ⟨m, i, hi⟩

/-- All events of a run are flat. -/
def FlatRun (s : State n M) : List (Event M) → Prop
  | [] => True
  | e :: es => Flat s e ∧ (step s e).elim True fun s' => FlatRun s' es

instance decidableFlatRun [Fintype M] :
    ∀ (s : State n M) (es : List (Event M)), Decidable (FlatRun s es)
  | _, [] => inferInstanceAs (Decidable True)
  | s, e :: es =>
    have : Decidable ((step s e).elim True fun s' => FlatRun s' es) :=
      match step s e with
      | none => inferInstanceAs (Decidable True)
      | some s' => decidableFlatRun s' es
    inferInstanceAs (Decidable (_ ∧ _))

theorem FlatRun.path {es : List (Event M)} (h : FlatRun s es) (hrun : run s es = some s') :
    Path FlatStep s es s' := by
  induction es generalizing s with
  | nil =>
    obtain rfl := Option.some.inj hrun
    exact .nil s
  | cons e es ih =>
    rw [run, Option.bind_eq_some_iff] at hrun
    obtain ⟨t, hstep, hrun⟩ := hrun
    obtain ⟨hflat, hrest⟩ := h
    rw [hstep] at hrest
    exact .cons ⟨hflat, hstep⟩ (ih hrest hrun)

/-- After a lost wake-up, with task 1 of two asleep on a free mutex, task 0 can still run. -/
theorem mutex_never_halts_two : ∃ s, run twoTasks (contend ++ .tick :: unlockAll ++ [.tick, .act])
    = some s ∧ s.sched.taskStates 1 = .sleeping ∧ yieldDecision s.sched ≠ none ∧
      ((∃ m, ∃ i ∈ s.holders m, Runs s i ∧ ∀ m' l, s.pc i = some (m', l) → l.waits = false) ∨
        (∀ m, (s.mutexes m).locked = 0) ∧
          ∃ i, Runs s i ∧ ∀ m l, s.pc i = some (m, l) → l.givesUp = false) := by
  have hflat : FlatRun twoTasks (contend ++ .tick :: unlockAll ++ [.tick, .act]) := by decide
  exact ⟨_, rfl, rfl, mutex_never_halts rfl (hflat.path rfl)⟩

/-- Task 0 takes the first of two mutexes and task 1 the second, and each then wants the other. -/
def cross : List (Event Bool) :=
  .lock false :: List.replicate 5 .act ++ .tick :: .lock true :: List.replicate 5 .act
    ++ .lock false :: List.replicate 5 .act ++ .lock true :: List.replicate 4 .act

/-- With nested locks all tasks can sleep, and then the scheduler halts. -/
theorem exists_nested_halt : ∃ s : State 2 Bool, Reachable s ∧
    (∀ i, s.sched.taskStates i = .sleeping) ∧ yieldDecision s.sched = none := by
  obtain ⟨s, hrun, hasleep, hhalt⟩ : ∃ s : State 2 Bool,
      run (initial ⟨0, fun i => if i = 0 then .running else .ready⟩) cross = some s ∧
        (∀ i, s.sched.taskStates i = .sleeping) ∧ yieldDecision s.sched = none :=
    ⟨_, rfl, by decide, rfl⟩
  exact ⟨s, (Reachable.initial _ rfl).run hrun, hasleep, hhalt⟩

end RiscvKernel.Sync
