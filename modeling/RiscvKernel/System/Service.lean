import RiscvKernel.System.Territory

/-!
# What a handler may do

A handler runs on behalf of the current task (`Entered`). By the time it returns or calls
`switch_to` it has kept the page tables in order, spared the other tasks and left exactly one task
running (`Handled.Good`). Here this is shown of the functions that only change the states of the
tasks, and of `task_exit`.

* `taskYield_cases`: everything `task_yield` can do.
* `Serviced.taskYield`: `task_yield` at the end of a handler.
* `taskExit_good`, `taskSleep_good`, `taskWakeup_good`.
-/

namespace RiscvKernel

open ByteMemory RadixTable Riscv

variable {n : ℕ}

/-- Exactly the current slot is running. -/
def Sched.Ok (s : Sched n) : Prop := ∀ id, s.taskStates id = .running ↔ id = s.currentTask

variable (L : Layout n)

/-- The context of a task that has not run yet: `switch_to` goes to `trap_return` with the frame
of the task. -/
structure Fresh (m : Mem) (id : Fin n) : Prop where
  ra : contextLoad m (L.context id) .ra = L.trapReturn
  sp : contextLoad m (L.context id) .sp = BitVec.ofNat 64 (L.taskTrapFrame id)

/-- The kernel runs on behalf of the current task `c`. -/
structure Entered (fits : Prop) (c : Fin n) (s : Machine n) : Prop where
  memOk : MemOk L fits s
  sched : s.sched.Ok
  current : s.sched.currentTask = c
  satp : s.hart.csr .satp = contextLoad s.mem (L.context c) .satp

/-- The kernel has gone from `s` to `s'` on behalf of `c`, without assembly code. -/
structure Serviced (fits : Prop) (W : Set ℕ) (c : Fin n) (s s' : Machine n) : Prop where
  onBehalf : OnBehalf L fits W c s s'
  reg : s'.hart.reg = s.hart.reg
  satp : s'.Live c → s'.hart.csr .satp = contextLoad s'.mem (L.context c) .satp
  fresh : ∀ id, ¬ s.Live id → s'.Live id → Fresh L s'.mem id

/-- What holds when a handler that was called in `s` returns or calls `switch_to`. -/
def Handled.Good (fits : Prop) (W : Set ℕ) (c : Fin n) (s : Machine n) : Handled n → Prop
  | .returned _ s' => Serviced L fits W c s s' ∧ s'.sched.Ok ∧ s'.sched.currentTask = c
  | .switching prev after s' => Serviced L fits W c s s' ∧ s'.sched.Ok ∧ prev = c ∧
      s'.sched.currentTask ≠ c ∧ (s'.Live c → after ≠ none)

variable {L} {fits : Prop} {W : Set ℕ} {c id : Fin n} {s s' : Machine n} {after : Option Word}
  {r : Handled n}

/-- The current slot is in use. -/
theorem Sched.Ok.live (h : s.sched.Ok) (hc : s.sched.currentTask = c) : s.Live c := by
  rw [Machine.Live, (h c).mpr hc.symm]
  simp

theorem Entered.running (h : Entered L fits c s) : s.sched.taskStates c = .running :=
  (h.sched c).mpr h.current.symm

theorem Entered.live (h : Entered L fits c s) : s.Live c := h.sched.live h.current

theorem Fresh.congr {m m' : Mem} (h : Fresh L m id) (hm : ∀ a ∈ L.contextRange id, m' a = m a) :
    Fresh L m' id := by
  refine ⟨?_, ?_⟩
  · rw [contextLoad_congr hm, h.ra]
  · rw [contextLoad_congr hm, h.sp]

theorem changedIn_frame (L : Layout n) (c : Fin n) (m : Mem) (f : TfField) (v : Word) :
    ChangedIn (L.stackRange c) m (tfStore m (L.taskTrapFrame c) f v) :=
  (changedIn_tfStore _ _ _ _).mono fun _ ha => mem_stackRange_of_frame ha.1 ha.2

/-! ### Binding a slot -/

theorem bindTaskFrame_spec (L : Layout n) (id : Fin n) (m : Mem) :
    ChangedIn (L.contextRange id) m (bindTaskFrame L id (L.taskTrapFrame id) m) ∧
      Fresh L (bindTaskFrame L id (L.taskTrapFrame id) m) id := by
  refine ⟨(changedIn_contextStore _ _ _ _).trans (changedIn_contextStore _ _ _ _), ?_, ?_⟩
  · rw [bindTaskFrame, contextLoad_contextStore, if_neg (by decide), contextLoad_contextStore,
      if_pos rfl]
  · rw [bindTaskFrame, contextLoad_contextStore, if_pos rfl]

theorem bindTaskPageTable_spec (L : Layout n) (id : Fin n) (pgd : ℕ) (m : Mem) :
    ChangedIn (L.contextRange id) m (bindTaskPageTable L id pgd m) ∧
      contextLoad (bindTaskPageTable L id pgd m) (L.context id) .satp = mmuMakeSatp pgd ∧
      (Fresh L m id → Fresh L (bindTaskPageTable L id pgd m) id) := by
  refine ⟨changedIn_contextStore _ _ _ _, ?_, fun h => ⟨?_, ?_⟩⟩
  · rw [bindTaskPageTable, contextLoad_contextStore, if_pos rfl]
  · rw [bindTaskPageTable, contextLoad_contextStore, if_neg (by decide), h.ra]
  · rw [bindTaskPageTable, contextLoad_contextStore, if_neg (by decide), h.sp]

/-! ### Scheduling -/

/-- `task_yield` goes on with the current task or calls `switch_to` for another one. -/
theorem taskYield_cases (h : taskYield after s = some r) :
    (∃ v, after = some v ∧ r = .returned v s ∧
      taskIsRunnable s.sched.taskStates s.sched.currentTask = true) ∨
    ∃ next, next ≠ s.sched.currentTask ∧ taskIsRunnable s.sched.taskStates next = true ∧
      r = .switching s.sched.currentTask after
        { s with sched := schedPrepareSwitch next s.sched } := by
  rw [taskYield, Option.bind_eq_some_iff] at h
  obtain ⟨sched, hyield, hr⟩ := h
  rcases yieldDecision_cases hyield with ⟨rfl, hrun⟩ | ⟨next, hne, hrun, rfl⟩
  · rw [if_neg (by simp), Option.map_eq_some_iff] at hr
    obtain ⟨v, hv, rfl⟩ := hr
    exact Or.inl ⟨v, hv, rfl, hrun⟩
  · rw [if_pos (by simpa using hne)] at hr
    exact Or.inr ⟨next, hne, hrun, (Option.some.inj hr).symm⟩

/-- A switch leaves the same slots in use. -/
theorem schedPrepareSwitch_eq_dead {t : Sched n} {next : Fin n}
    (hrun : taskIsRunnable t.taskStates next = true) (id : Fin n) :
    (schedPrepareSwitch next t).taskStates id = .dead ↔ t.taskStates id = .dead := by
  rw [taskIsRunnable_iff] at hrun
  by_cases hid : id = next
  · subst hid
    rw [schedPrepareSwitch_next]
    rcases hrun with h | h <;> simp [h]
  · rw [schedPrepareSwitch_of_ne hid]
    split_ifs with h
    · simp [h.2]
    · rfl

/-- After a switch exactly the slot switched to is running. -/
theorem schedPrepareSwitch_ok {t : Sched n} {next : Fin n}
    (honly : ∀ id, t.taskStates id = .running → id = t.currentTask) :
    (schedPrepareSwitch next t).Ok := by
  intro id
  rw [schedPrepareSwitch_currentTask]
  by_cases hid : id = next
  · subst hid
    simp [schedPrepareSwitch_next]
  · rw [schedPrepareSwitch_of_ne hid]
    split_ifs with h
    · simp [hid]
    · refine iff_of_false (fun hrun => h ⟨honly id hrun, hrun⟩) hid

namespace Serviced

/-- Changing the states of tasks without creating or ending one. -/
theorem of_sched (h : Serviced L fits W c s s') (sched : Sched n)
    (hdead : ∀ id, sched.taskStates id = .dead ↔ s'.sched.taskStates id = .dead) :
    Serviced L fits W c s { s' with sched := sched } := by
  have hlive : ∀ id, Machine.Live { s' with sched := sched } id ↔ s'.Live id :=
    fun id => not_congr (hdead id)
  refine ⟨h.onBehalf.trans ?_, h.reg, fun hc => h.satp ((hlive c).mp hc),
    fun id hid hid' => h.fresh id hid ((hlive id).mp hid')⟩
  exact OnBehalf.of_kernelWrite (A := ∅) h.onBehalf.memOk (ChangedIn.refl _ _)
    (fun a ha => absurd ha (Set.notMem_empty a)) (fun _ => rfl) rfl rfl hlive fun _ _ => rfl

/-- Writing to the kernel stack, the trapframe included. -/
theorem withStack {m : Mem} (h : Serviced L fits W c s s')
    (hchanged : ChangedIn (L.stackRange c) s'.mem m) : Serviced L fits W c s (s'.withMem m) := by
  have hcontext : ∀ id, ∀ a ∈ L.contextRange id, m a = s'.mem a :=
    fun id a ha => hchanged a (Layout.contextRange_not_stack ha)
  refine ⟨h.onBehalf.trans ?_, h.reg, fun hc => ?_, fun id hid hid' => ?_⟩
  · exact OnBehalf.of_kernelWrite h.onBehalf.memOk hchanged (fun a ha => Or.inr ha)
      (fun _ => contextLoad_congr (hcontext c) .satp) rfl rfl (fun _ => Iff.rfl) fun _ _ => rfl
  · rw [Machine.withMem_mem, contextLoad_congr (hcontext c)]
    exact h.satp hc
  · exact (h.fresh id hid hid').congr (hcontext id)

/-- `task_yield` at the end of a handler. -/
theorem taskYield (h : Serviced L fits W c s s') (hcurrent : s'.sched.currentTask = c)
    (honly : ∀ id, s'.sched.taskStates id = .running → id = c)
    (hready : s'.sched.taskStates c ≠ .ready) (hafter : s'.Live c → after ≠ none)
    (hr : RiscvKernel.taskYield after s' = some r) : r.Good L fits W c s := by
  rcases taskYield_cases hr with ⟨v, -, rfl, hrun⟩ | ⟨next, hne, hrun, rfl⟩
  · refine ⟨h, fun id => ⟨fun hid => ?_, fun hid => ?_⟩, hcurrent⟩
    · rw [hcurrent]
      exact honly id hid
    · -- a runnable slot that is not ready is running
      rw [hcurrent] at hid hrun
      subst hid
      exact ((taskIsRunnable_iff _ _).mp hrun).resolve_left hready
  · rw [hcurrent] at hne
    refine ⟨h.of_sched _ (schedPrepareSwitch_eq_dead hrun), ?_, hcurrent, ?_, fun hc => hafter ?_⟩
    · exact schedPrepareSwitch_ok fun id hid => (honly id hid).trans hcurrent.symm
    · rwa [schedPrepareSwitch_currentTask]
    · exact fun hdead => hc ((schedPrepareSwitch_eq_dead hrun c).mpr hdead)

end Serviced

namespace Entered

theorem serviced (h : Entered L fits c s) : Serviced L fits W c s s where
  onBehalf := OnBehalf.refl h.memOk
  reg := rfl
  satp _ := h.satp
  fresh _ hid hid' := absurd hid' hid

theorem only (h : Entered L fits c s) (hid : s.sched.taskStates id = .running) : id = c :=
  ((h.sched id).mp hid).trans h.current

/-- `task_yield` in a handler that has done nothing else. -/
theorem taskYield_good (h : Entered L fits c s) (hafter : after ≠ none)
    (hr : taskYield after s = some r) : r.Good L fits W c s := by
  refine h.serviced.taskYield h.current (fun _ => h.only) ?_ (fun _ => hafter) hr
  rw [h.running]
  simp

theorem taskSleep_good (h : Entered L fits c s) (hafter : after ≠ none)
    (hr : taskSleep after s = some r) : r.Good L fits W c s := by
  have hstates : ∀ id, (s.setState c .sleeping).sched.taskStates id
      = if id = c then .sleeping else s.sched.taskStates id := by
    intro id
    rw [Machine.setState_taskStates, Function.update_apply]
  have hserviced : Serviced L fits W c s (s.setState c .sleeping) := by
    refine h.serviced.of_sched _ fun id => ?_
    change (s.setState c .sleeping).sched.taskStates id = .dead ↔ _
    rw [hstates]
    split_ifs with hid
    · simp [hid, h.running]
    · rfl
  rw [taskSleep, h.current] at hr
  refine hserviced.taskYield h.current (fun id hid => ?_) ?_ (fun _ => hafter) hr
  · rw [hstates] at hid
    split_ifs at hid with hc
    exact h.only hid
  · rw [hstates, if_pos rfl]
    simp

theorem taskWakeup_good (h : Entered L fits c s) (hid : s.sched.taskStates id = .sleeping)
    (v : Word) : (Handled.returned v (taskWakeup id s)).Good L fits W c s := by
  have hstates : ∀ j, (taskWakeup id s).sched.taskStates j
      = if j = id then .ready else s.sched.taskStates j := by
    intro j
    rw [taskWakeup, Machine.setState_taskStates, Function.update_apply]
  refine ⟨h.serviced.of_sched _ fun j => ?_, fun j => ?_, h.current⟩
  · change (taskWakeup id s).sched.taskStates j = .dead ↔ _
    rw [hstates]
    split_ifs with hj
    · simp [hj, hid]
    · rfl
  · have hcurrent : (taskWakeup id s).sched.currentTask = s.sched.currentTask := rfl
    rw [hstates, hcurrent]
    split_ifs with hj
    · have hne : id ≠ s.sched.currentTask := by
        intro heq
        rw [(h.sched id).mpr heq] at hid
        cases hid
      simp [hj, hne]
    · exact h.sched j

/-! ### Exit -/

/-- `task_exit` gives the pages of the task back and never returns. -/
theorem taskExit_good (h : Entered L fits c s) (hr : taskExit L s = some r) :
    r.Good L fits W c s := by
  obtain ⟨free, hspaces⟩ := h.memOk.spaces
  have hpgd := pgds_of_live h.live (L := L)
  obtain ⟨free', hspaces', hm⟩ := hspaces.freeUserPageTable hpgd
  rw [taskExit, h.current] at hr
  -- what is written to are the pages that the table gives back
  have howned : ∀ x ∈ owned L.kernelEnd s.mem 3 (taskPageTable L s.mem c),
      x ∈ (free : Multiset ℕ) + ownedBy L.kernelEnd s.mem (pgds L s c) := by
    intro x hx
    rw [hpgd, ownedBy_some]
    exact Multiset.mem_add.mpr (Or.inr hx)
  generalize freeUserPageTable L.kernelEnd s.rootPageTable (taskPageTable L s.mem c) s.phys = phys'
    at hr hspaces' hm
  set s₁ : Machine n := { s with phys := phys' } with hs₁
  have hdead : ¬ ((s₁.setUserStack c 0).setState c .dead).Live c := by
    simp [Machine.Live]
  have hother : ∀ id, id ≠ c →
      ((s₁.setUserStack c 0).setState c .dead).sched.taskStates id = s.sched.taskStates id := by
    intro id hid
    rw [Machine.setState_taskStates, Function.update_of_ne hid]
    rfl
  -- the pages of the task have moved to the free list
  have hbehalf : OnBehalf L fits W c s ((s₁.setUserStack c 0).setState c .dead) := by
    refine OnBehalf.of_spaces h.memOk hspaces none hspaces' hm
      (fun x hx => Or.inr (howned x hx)) (fun a ha _ => hspaces.eq_below c hm howned ha)
      (fun _ => hdead) (fun p hp => by cases hp) (fun id hid => ?_) rfl
      (fun id hid => Function.update_of_ne hid _ _)
    rw [Machine.Live, Machine.Live, hother id hid]
  refine Serviced.taskYield ⟨hbehalf, rfl, fun hc => absurd hc hdead, fun id hid hid' => ?_⟩
    h.current (fun id hid => ?_) ?_ (fun hc => absurd hc hdead) hr
  · -- no slot has come into use
    by_cases hc : id = c
    · exact absurd (hc ▸ hid') hdead
    · rw [Machine.Live, hother id hc] at hid'
      exact absurd hid' hid
  · by_cases hc : id = c
    · exact hc
    · rw [hother id hc] at hid
      exact h.only hid
  · simp

end Entered

end RiscvKernel
