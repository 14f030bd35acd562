import RiscvKernel.System.Refinement

/-!
# Turns

A task that is ready to run gets its turn: as long as it waits, fewer than `n` timer interrupts are
taken, whatever the other tasks do in between (`bounded_waiting`). The measure is the number of
tasks that are asked before it: no step makes it larger, and a timer interrupt makes it smaller.
A read may store its character anywhere but in the kernel's own memory, where it could overwrite
`current_task`.

No other task gets more than one turn more than a task that is always ready (`turns_fair`): between
two turns of the other task it is asked itself.
-/

namespace RiscvKernel

open ByteMemory Riscv CyclicScan Simulation

variable {n : ℕ} {L : Layout n} {img : AppImage} {fits : Prop} {s s₁ : Machine n}
  {r : Handled n} {after : Option Word} {c c' : Config n} {id : Fin n} {e : Event n}
  {es : List (Event n)} {service : Service n} {cause tval : Word} {ch : Byte}

/-- A timer interrupt. -/
def isTimer (cause : Word) : Bool := isInterrupt cause && exceptionCode cause = 7

/-- The event is a timer interrupt. -/
def Event.isTimer : Event n → Bool
  | .trap .trapHandler cause _ _ => RiscvKernel.isTimer cause
  | _ => false

/-! ### The scheduler -/

/-- `task_yield` gives the turn to the first task that is ready to run, the caller being asked
last. -/
theorem taskYield_first (h : taskYield after s = some r)
    (hid : taskIsRunnable r.machine.sched.taskStates id = true) :
    gap s.sched.currentTask r.machine.sched.currentTask ≤ gap s.sched.currentTask id := by
  -- who is ready to run does not change
  have hbefore : taskIsRunnable s.sched.taskStates id = true := by
    obtain ⟨hdead, hsleeping⟩ := taskYield_states h id
    rw [taskIsRunnable_iff] at hid ⊢
    cases hstate : s.sched.taskStates id with
    | ready => exact Or.inl rfl
    | running => exact Or.inr rfl
    | dead => simp [hdead.mpr hstate] at hid
    | sleeping => simp [hsleeping.mpr hstate] at hid
  have hpick : schedPickNext s.sched.taskStates s.sched.currentTask
      = some r.machine.sched.currentTask := by
    rw [taskYield, Option.bind_eq_some_iff] at h
    obtain ⟨sched, hyield, h⟩ := h
    have hpick := yieldDecision_currentTask hyield
    split_ifs at h with hne
    · obtain rfl := Option.some.inj h
      exact hpick
    · obtain ⟨v, -, rfl⟩ := Option.map_eq_some_iff.mp h
      rwa [not_not.mp hne] at hpick
  exact (scan_eq_some hpick).2 id hbefore

/-- A service gives the turn to nobody, or to the first task that is ready to run. -/
theorem serve_turn (ht : TrapTaken L c.current cause c.machine s₁) (hc : Inv L fits c)
    (hr : serve L img service ch s₁ = some r) :
    r.machine.sched.currentTask = s₁.sched.currentTask ∨
      ∀ id, taskIsRunnable r.machine.sched.taskStates id = true →
        gap s₁.sched.currentTask r.machine.sched.currentTask
          ≤ gap s₁.sched.currentTask id := by
  have h₁ := ht.entered hc.entered
  cases service with
  | trapHandler =>
    rw [serve, ht.cause_arg, ht.arg0_arg, ht.arg1_arg, ht.sysNum_arg, ht.tf_arg] at hr
    rcases trapHandler_cases hr with ⟨-, -, hyield⟩ | ⟨-, -, rfl⟩ | ⟨call, -, hr⟩ | ⟨-, -, rfl⟩
    · exact Or.inr fun _ => taskYield_first hyield
    · exact Or.inl rfl
    · cases call with
      | read =>
        obtain ⟨m, v, heq, -⟩ := doSysRead_spec ch (c.machine.hart.reg .a0)
          (c.machine.hart.reg .a1) (s₁.hart.reg .a1) (L.taskTrapFrame c.current) s₁
        obtain rfl := Option.some.inj (heq.symm.trans hr)
        exact Or.inl rfl
      | write =>
        obtain rfl := Option.some.inj hr
        exact Or.inl rfl
      | schedYield => exact Or.inr fun _ => taskYield_first hr
      | exit =>
        -- the caller is dead by then, but still the one that the scan starts behind
        rw [Syscall.handler, doSysExit, taskExit] at hr
        refine Or.inr fun _ hid => ?_
        have hfirst := taskYield_first hr hid
        simpa only [Machine.setState_currentTask, Machine.setUserStack_sched] using hfirst
      | clone =>
        rw [Syscall.handler, doSysClone, Option.bind_eq_some_iff] at hr
        obtain ⟨⟨child, s⟩, hfork, hr⟩ := hr
        obtain rfl := Option.some.inj hr
        rcases (taskFork_spec h₁ _).post_of_eq_some hfork with ⟨heq, -⟩ | ⟨d, -, -, hf⟩
        · obtain ⟨-, rfl⟩ := Prod.mk.inj heq
          exact Or.inl rfl
        · refine Or.inl ?_
          change s.sched.currentTask = s₁.sched.currentTask
          rw [hf.sched]
      | execve =>
        rw [Syscall.handler, doSysExecve, Option.bind_eq_some_iff] at hr
        obtain ⟨⟨v, s⟩, hexec, hr⟩ := hr
        obtain rfl := Option.some.inj hr
        exact Or.inl (congrArg Sched.currentTask (taskExec_kept hexec).1)
    · exact Or.inl rfl
  | sleep =>
    rw [serve, taskSleep] at hr
    refine Or.inr fun _ hid => ?_
    have hfirst := taskYield_first hr hid
    rwa [Machine.setState_currentTask] at hfirst
  | wakeup j =>
    rw [serve] at hr
    split_ifs at hr
    obtain rfl := Option.some.inj hr
    exact Or.inl rfl

/-! ### Steps -/

/-- The steps in which no read stores into the kernel's own memory. -/
def SafeStep (L : Layout n) (img : AppImage) (c : Config n) (e : Event n) (c' : Config n) : Prop :=
  SafeRead L c e ∧ Step L img c e c'

theorem SafeStep.inv (h : SafeStep L img c e c') (hc : Inv L False c) : Inv L False c' :=
  (h.2.advanced hc False.elim h.1).inv

/-- A step passes over no task that is ready to run. -/
theorem SafeStep.turn (h : SafeStep L img c e c') (hc : Inv L False c) : c'.current = c.current ∨
    ∀ id, taskIsRunnable c'.machine.sched.taskStates id = true →
      gap c.current c'.current ≤ gap c.current id := by
  obtain ⟨hsafe, hstep⟩ := h
  cases e with
  | compute reg pc =>
    cases hstep
    exact Or.inl rfl
  | store va b =>
    cases hstep
    exact Or.inl rfl
  | resume => exact Or.inl (congrArg Sched.currentTask (hstep.resume_kept hc).1)
  | trap service cause tval ch =>
    have huser : c.phase = .user := by cases hstep <;> assumption
    have ht := entered_spec (hc.user huser).2 cause tval
    obtain ⟨r, hserve, -, hbehind⟩ := hstep.trap_behind hc False.elim hsafe
    rw [Config.current, hbehind.sched, Config.current, ← ht.sched]
    exact serve_turn ht hc hserve

/-- A timer interrupt gives the turn to the first task that is ready to run. -/
theorem SafeStep.timer_turn (h : SafeStep L img c e c') (hc : Inv L False c)
    (htimer : e.isTimer = true) (hid : taskIsRunnable c'.machine.sched.taskStates id = true) :
    gap c.current c'.current ≤ gap c.current id := by
  obtain ⟨hsafe, hstep⟩ := h
  cases e with
  | compute | store | resume => cases htimer
  | trap service cause tval ch =>
    cases service with
    | sleep | wakeup => cases htimer
    | trapHandler =>
      have huser : c.phase = .user := by cases hstep <;> assumption
      have ht := entered_spec (hc.user huser).2 cause tval
      obtain ⟨r, hserve, -, hbehind⟩ := hstep.trap_behind hc False.elim hsafe
      rw [hbehind.sched] at hid
      rw [Config.current, Config.current, hbehind.sched, ← ht.sched]
      have hcause : isInterrupt cause = true ∧ exceptionCode cause = 7 := by
        simpa [Event.isTimer, isTimer] using htimer
      rw [serve, ht.cause_arg, trapHandler, if_pos hcause.1, if_pos hcause.2] at hserve
      exact taskYield_first hserve hid

/-! ### Runs -/

/-- A step after which task `id` still waits for its turn. -/
structure WaitingStep (L : Layout n) (img : AppImage) (id : Fin n) (c : Config n) (e : Event n)
    (c' : Config n) : Prop where
  step : SafeStep L img c e c'
  runnable : taskIsRunnable c'.machine.sched.taskStates id = true
  waits : c'.current ≠ id

/-- No step makes a task wait longer. -/
theorem WaitingStep.gap_le (h : WaitingStep L img id c e c') (hc : Inv L False c) :
    gap c'.current id ≤ gap c.current id := by
  rcases h.step.turn hc with hsame | hfirst
  · rw [hsame]
  · exact (gap_lt_gap (hfirst id h.runnable) h.waits).le

/-- A timer interrupt brings the turn of a task nearer. -/
theorem WaitingStep.gap_lt (h : WaitingStep L img id c e c') (hc : Inv L False c)
    (htimer : e.isTimer = true) : gap c'.current id < gap c.current id :=
  gap_lt_gap (h.step.timer_turn hc htimer h.runnable) h.waits

/-- As long as a task is ready to run and does not get its turn, fewer than `n` timer interrupts
are taken. -/
theorem bounded_waiting [NeZero n] (h : Reachable L img (SafeRead L) c)
    (hrun : Path (WaitingStep L img id) c es c') : es.countP Event.isTimer < n := by
  have hc : Inv L False c := h.inv False.elim fun _ _ hsafe => hsafe
  have hcount := hrun.countP_add_le (P := Inv L False) (f := fun c => gap c.current id)
    (p := Event.isTimer) (fun c e c' hc hstep => hstep.step.inv hc)
    (fun c e c' hc hstep => hstep.gap_le hc)
    (fun c e c' hc hstep htimer => hstep.gap_lt hc htimer) hc
  have hgap := gap_lt c.current id
  omega

/-- A child waits while its parent computes. -/
theorem exists_bounded_waiting : ∃ (c c' : Config 2) (es : List (Event 2)),
    Reachable twoSlots minimalImage (SafeRead twoSlots) c ∧ es ≠ [] ∧
      Path (WaitingStep twoSlots minimalImage 1) c es c' ∧ es.countP Event.isTimer < 2 := by
  obtain ⟨c, -, hreach, huser, hsched, -⟩ := exists_twoLive
  have hreach := hreach.mono fun _ _ hno => hno.safeRead (L := twoSlots)
  obtain ⟨c', hcompute, -, hmachine⟩ :=
    exists_compute (L := twoSlots) minimalImage huser fun _ => 0
  have hsched' : c'.machine.sched = c.machine.sched := by rw [hmachine]
  have hwaiting : WaitingStep twoSlots minimalImage 1 c
      (.compute (fun _ => 0) c.machine.hart.pc) c' := by
    refine ⟨⟨noRead_compute.safeRead, hcompute⟩, ?_, ?_⟩
    · rw [hsched', hsched]
      decide
    · rw [Config.current, hsched', hsched]
      decide
  have hrun := Path.single hwaiting
  exact ⟨c, c', _, hreach, by simp, hrun, bounded_waiting hreach hrun⟩

/-! ### Fairness -/

/-- A step after which task `id` is ready to run, with the tasks whose turn it is before and after
it. -/
structure FairStep (L : Layout n) (img : AppImage) (id : Fin n) (c : Config n) (x : Fin n × Fin n)
    (c' : Config n) : Prop where
  step : ∃ e, SafeStep L img c e c'
  turns : x = (c.current, c'.current)
  runnable : taskIsRunnable c'.machine.sched.taskStates id = true

/-- The turn is given to task `id`. -/
def turnOf (id : Fin n) (x : Fin n × Fin n) : Bool := x.2 ≠ x.1 && x.2 = id

/-- Whether the turn of `i` is nearer than that of `j`. -/
def nearer (i j : Fin n) (c : Config n) : ℕ := if gap c.current i < gap c.current j then 1 else 0

variable {i j : Fin n} {x : Fin n × Fin n} {xs : List (Fin n × Fin n)}

theorem nearer_le_one (i j : Fin n) (c : Config n) : nearer i j c ≤ 1 := by
  rw [nearer]
  split_ifs <;> omega

/-- Task `i` gets a turn before `j` only if its turn is nearer, and then it is not any more until
`j` has had one. -/
theorem FairStep.nearer_le (h : FairStep L img j c x c') (hc : Inv L False c) (hij : i ≠ j) :
    nearer i j c' + (if turnOf i x then 1 else 0)
      ≤ nearer i j c + if turnOf j x then 1 else 0 := by
  obtain ⟨⟨e, hstep⟩, rfl, hj⟩ := h
  -- a step that does not give the turn away
  by_cases hsame : c'.current = c.current
  · simp [nearer, turnOf, hsame]
  have hfirst := (hstep.turn hc).resolve_left hsame j hj
  have hturn : ∀ k, turnOf k (c.current, c'.current) = true ↔ c'.current = k := by
    simp [turnOf, hsame]
  simp only [hturn]
  by_cases hcurrent : c'.current = j
  · -- the turn of `j` pays for the next one of `i`
    have hone := nearer_le_one i j c'
    rw [if_neg fun hi => hij (hi.symm.trans hcurrent), if_pos hcurrent]
    omega
  have hless : gap c.current c'.current < gap c.current j :=
    lt_of_le_of_ne hfirst (mt gap_inj.mp hcurrent)
  rw [if_neg hcurrent]
  by_cases hi : c'.current = i
  · -- `i` gets its turn, and from there `j` is nearer
    rw [if_pos hi, nearer, nearer, hi, if_neg (gap_le_self i j).not_gt, if_pos (hi ▸ hless)]
  · rw [if_neg hi, nearer, nearer]
    split_ifs with hafter hbefore
    · exact le_rfl
    · -- `i` was behind `j`, and so it still is
      exact absurd hafter (gap_le_gap hless (not_lt.mp hbefore)).not_gt
    · exact Nat.zero_le _
    · exact le_rfl

/-- However many turns the tasks get, one of them gets at most one turn more than another one that
is always ready to run. -/
theorem turns_fair [NeZero n] (h : Reachable L img (SafeRead L) c)
    (hrun : Path (FairStep L img j) c xs c') :
    xs.countP (turnOf i) ≤ xs.countP (turnOf j) + 1 := by
  have hc : Inv L False c := h.inv False.elim fun _ _ hsafe => hsafe
  by_cases hij : i = j
  · rw [hij]
    exact Nat.le_succ _
  · have hcount := hrun.countP_add_le_mul (P := Inv L False) (f := nearer i j) (p := turnOf i)
      (q := turnOf j) (b := 1) ?_ (fun c x c' hc hstep => hstep.nearer_le hc hij) hc
    · have hone := nearer_le_one i j c
      omega
    · rintro c x c' hc ⟨⟨e, hstep⟩, -, -⟩
      exact hstep.inv hc

/-- The first task clones itself and yields to its child, which has had one turn then. -/
theorem exists_turns_fair : ∃ (c c' : Config 2) (xs : List (Fin 2 × Fin 2)),
    Reachable twoSlots minimalImage (SafeRead twoSlots) c ∧
      Path (FairStep twoSlots minimalImage 0) c xs c' ∧
      xs.countP (turnOf 1) = 1 ∧ xs.countP (turnOf 1) ≤ xs.countP (turnOf 0) + 1 := by
  obtain ⟨c₁, -, hreach, huser, hsched₁, -⟩ := exists_twoLive
  have hreach := hreach.mono fun _ _ hno => hno.safeRead (L := twoSlots)
  have hc₁ : Inv twoSlots False c₁ := hreach.inv False.elim fun _ _ hsafe => hsafe
  have hcurrent₁ : c₁.current = 0 := congrArg Sched.currentTask hsched₁
  have hpick : schedPickNext c₁.machine.sched.taskStates c₁.current = some 1 := by
    rw [Config.current, hsched₁]
    decide
  obtain ⟨c₂, c₃, hcompute, -, hsched₂, hcall₂, hyield, -, hsched₃⟩ :=
    exists_yield_step minimalImage hc₁ False.elim huser hpick (by rw [hcurrent₁]; decide)
  have hno₂ : NoRead c₂ (.trap .trapHandler 8#64 0 0) := noRead_of_call (by simp [hcall₂])
  have hcurrent₂ : c₂.current = 0 := congrArg Sched.currentTask (hsched₂.trans hsched₁)
  have hcurrent₃ : c₃.current = 1 := congrArg Sched.currentTask hsched₃
  have hrun : Path (FairStep twoSlots minimalImage 0) c₁ [(0, 0), (0, 1)] c₃ := by
    refine .cons ⟨⟨_, noRead_compute.safeRead, hcompute⟩, by rw [hcurrent₁, hcurrent₂], ?_⟩
      (.single ⟨⟨_, hno₂.safeRead, hyield⟩, by rw [hcurrent₂, hcurrent₃], ?_⟩)
    · rw [hsched₂, hsched₁]
      decide
    · rw [hsched₃, hsched₁]
      decide
  exact ⟨c₁, c₃, _, hreach, hrun, rfl, turns_fair hreach hrun⟩

end RiscvKernel
