import RiscvKernel.System.ProcessStep

/-!
# The process that traps

What becomes of the process of the task that a trap is taken from, when it goes on or gives its turn
away.

* `Step.process_of_trap`: the process that trapped, when it goes on.
* `Step.process_answer`, `Step.process_skip`: it has been given a result, or none.
* `Step.world_yield`: it gives its turn away.
-/

namespace RiscvKernel

open ByteMemory RadixTable Riscv CyclicScan

variable {n : ℕ} {L : Layout n} {img : AppImage} {fits : Prop} {s s' s₁ s₂ : Machine n}
  {c c' : Config n} {id : Fin n} {service : Service n} {cause epc tval arg0 arg1 : Word}
  {sysNum v : Word} {ch : Byte} {r : Handled n} {after : Option Word} {w : World n} {p : Process}
  {q : Option Process} {call : Syscall} {tf : ℕ}

/-! ### Causes -/

/-- Of the exceptions only the two environment calls return. -/
theorem exceptionCode_of_trapHandler
    (h : trapHandler L img ch cause epc tval arg0 arg1 sysNum tf s = some r)
    (hint : isInterrupt cause = false) : exceptionCode cause = 8 ∨ exceptionCode cause = 11 := by
  by_contra hcode
  rw [trapHandler, hint, if_neg (by simp), if_neg hcode] at h
  cases h

theorem World.trap_of_call (hcall : syscallOf cause (p.reg .a7) = some call) :
    w.trap img p cause .trapHandler = w.call img p call := by
  have hcall' := hcall
  rw [syscallOf] at hcall'
  split_ifs at hcall' with hint hcode hnum
  rw [World.trap, if_neg hint, if_pos hcode, hcall]

theorem World.trap_of_unknown (hint : isInterrupt cause = false)
    (hcode : exceptionCode cause = 8 ∨ exceptionCode cause = 11)
    (hcall : syscallOf cause (p.reg .a7) = none) :
    w.trap img p cause .trapHandler = some (w.become p.skip) := by
  rw [World.trap, hint, if_neg (by simp), if_pos hcode, hcall]

/-! ### The process that trapped -/

/-- A process that goes on after a trap has its registers, but for a result in `a0`. -/
theorem Step.process_of_trap (hstep : Step L img c (.trap service cause tval ch) c')
    (hc : Inv L fits c) (hfits : fits → img.Fits) (hno : NoRead c (.trap service cause tval ch))
    (hnot : ¬ service.Ends img cause c.machine.hart)
    (hserve : serve L img service ch (entered L cause tval c.machine) = some r) :
    c'.machine.Live c.current ∧ c'.process L c.current =
      { reg := fun x => if x = .a0 then tfLoad r.machine.mem (L.taskTrapFrame c.current) .a0
          else c.machine.hart.reg x
        pc := service.resumePc cause c.machine.hart.pc
        space := userSpace L c.machine c.current
        awake := r.machine.sched.taskStates c.current ≠ .sleeping } := by
  have huser : c.phase = .user := by cases hstep <;> assumption
  have ht := entered_spec (hc.user huser).2 cause tval
  obtain ⟨r', hserve', hcont, hleft⟩ := hstep.trap_left hc hfits hno.safeRead hnot
  obtain rfl := Option.some.inj (hserve'.symm.trans hserve)
  have hspace := userSpace_of_sameUser (hstep.trap_sameUser hc hfits hno hnot).1
  -- the handler has left the registers in the trapframe, but for the result
  have hframe : ∀ x, tfLoad r'.machine.mem (L.taskTrapFrame c.current) (regField x)
      = if x = .a0 then tfLoad r'.machine.mem (L.taskTrapFrame c.current) .a0
        else c.machine.hart.reg x := by
    intro x
    by_cases hx : x = .a0
    · rw [if_pos hx, hx]
      rfl
    · have hfield : regField x ≠ .a0 := by
        revert hx
        cases x <;> decide
      rw [if_neg hx, hcont.kept.frame _ hfield, ht.frame]
  refine ⟨?_, ?_⟩
  · rw [Machine.Live, hleft.sched]
    exact hcont.live
  -- the task is back in user mode, or it waits behind a switch
  rcases hleft.goes with ⟨hphase, hcurrent, ⟨-, hpc, hreg⟩, -⟩ | ⟨hphase, -, hra, k, hk, hafter⟩
  · rw [process_of_runs ⟨hphase, hcurrent.symm⟩]
    refine Process.ext (funext fun x => (hreg x).trans (hframe x)) hpc hspace ?_
    rw [hleft.sched]
  · have hwaits : ¬ c'.Runs c.current := fun hruns => by
      rw [hruns.1] at hphase
      cases hphase
    rw [process_of_not_runs hwaits]
    refine Process.ext (funext fun x => ?_) ?_ hspace ?_
    · exact (hleft.frame _ (regField_ne_epc x)).trans (hframe x)
    · -- it waits behind `switch_to`, and returns what the handler returns
      rw [Config.savedPc, hra, if_neg L.returns_ne, hk, Option.bind_some, hafter, Option.getD_some]
    · rw [hleft.sched]

/-- A process that goes on with the result `v`. -/
theorem Step.process_answer (hstep : Step L img c (.trap service cause tval ch) c')
    (hc : Inv L fits c) (hfits : fits → img.Fits) (hno : NoRead c (.trap service cause tval ch))
    (hnot : ¬ service.Ends img cause c.machine.hart)
    (hserve : serve L img service ch (entered L cause tval c.machine) = some r)
    (hcall : service.call cause c.machine.hart = some call)
    (hstate : r.machine.sched.taskStates c.current = c.machine.sched.taskStates c.current)
    (hv : tfLoad r.machine.mem (L.taskTrapFrame c.current) .a0 = v) :
    c'.process L c.current = (c.process L c.current).answer v := by
  have huser : c.phase = .user := by cases hstep <;> assumption
  have hrunning : c.machine.sched.taskStates c.current = .running := (hc.sched _).mpr rfl
  rw [(hstep.process_of_trap hc hfits hno hnot hserve).2, hc.process_current huser, hv,
    resumePc_of_call hcall, hstate, hrunning]
  rfl

/-- A process that goes on without a result. -/
theorem Step.process_skip (hstep : Step L img c (.trap service cause tval ch) c')
    (hc : Inv L fits c) (hfits : fits → img.Fits) (hno : NoRead c (.trap service cause tval ch))
    (hnot : ¬ service.Ends img cause c.machine.hart)
    (hserve : serve L img service ch (entered L cause tval c.machine) = some r)
    (hread : service.call cause c.machine.hart ≠ some .read)
    (hclone : service.call cause c.machine.hart ≠ some .clone) :
    c'.machine.Live c.current ∧ c'.process L c.current = { c.process L c.current with
      pc := service.resumePc cause (c.process L c.current).pc
      awake := r.machine.sched.taskStates c.current ≠ .sleeping } := by
  have huser : c.phase = .user := by cases hstep <;> assumption
  have ht := entered_spec (hc.user huser).2 cause tval
  obtain ⟨r', hserve', hcont, -⟩ := hstep.trap_left hc hfits hno.safeRead hnot
  obtain rfl := Option.some.inj (hserve'.symm.trans hserve)
  obtain ⟨hlive, hprocess⟩ := hstep.process_of_trap hc hfits hno hnot hserve
  refine ⟨hlive, ?_⟩
  rw [hprocess, hc.process_current huser]
  refine Process.ext (funext fun x => ?_) rfl rfl rfl
  dsimp only
  -- only a read and a clone put a result in the trapframe
  split_ifs with hx
  · have hframe : tfLoad (entered L cause tval c.machine).mem (L.taskTrapFrame c.current) .a0
        = c.machine.hart.reg .a0 := ht.frame .a0
    rw [hx, hcont.a0 hread hclone, hframe]
  · rfl

/-! ### Turns -/

/-- The states of the tasks after `task_yield`, as far as they can be told from the processes. -/
theorem taskYield_states (hr : taskYield after s = some r) (id : Fin n) :
    (r.machine.sched.taskStates id = .dead ↔ s.sched.taskStates id = .dead) ∧
      (r.machine.sched.taskStates id = .sleeping ↔ s.sched.taskStates id = .sleeping) := by
  rcases taskYield_cases hr with ⟨v, -, rfl, -⟩ | ⟨next, -, hrun, rfl⟩
  · exact ⟨Iff.rfl, Iff.rfl⟩
  · refine ⟨schedPrepareSwitch_eq_dead hrun id, ?_⟩
    change (schedPrepareSwitch next s.sched).taskStates id = .sleeping ↔ _
    by_cases hid : id = next
    · rw [taskIsRunnable_iff] at hrun
      rw [hid, schedPrepareSwitch_next]
      rcases hrun with h | h <;> simp [h]
    · rw [schedPrepareSwitch_of_ne hid]
      split_ifs with h
      · simp [h.2]
      · rfl

/-- `task_yield` gives the turn to the process that is next. -/
theorem World.yield_of_taskYield (hcurrent : w.current = s.sched.currentTask)
    (hawake : ∀ id, w.awake id = taskIsRunnable s.sched.taskStates id)
    (hr : taskYield after s = some r) :
    w.yield = some { w with current := r.machine.sched.currentTask } := by
  have hsame : w.awake = taskIsRunnable s.sched.taskStates := funext hawake
  rw [taskYield, Option.bind_eq_some_iff] at hr
  obtain ⟨sched, hyield, hr⟩ := hr
  have hpick := yieldDecision_currentTask hyield
  have hsched : r.machine.sched.currentTask = sched.currentTask := by
    -- a switch, or no other task to switch to
    split_ifs at hr with hne
    · rw [← Option.some.inj hr]
      rfl
    · obtain ⟨v, -, rfl⟩ := Option.map_eq_some_iff.mp hr
      exact (not_not.mp hne).symm
  rw [yield, hsame, hcurrent, hsched]
  rw [schedPickNext] at hpick
  rw [hpick, Option.map_some]

/-- Who takes turns when the slot of the current process holds `q`. -/
theorem world_set_awake {states : Fin n → TaskState}
    (hothers : ∀ id, id ≠ c.current → states id = c.machine.sched.taskStates id)
    (hq : q.any Process.awake = taskIsRunnable states c.current) (id : Fin n) :
    ((c.world L).set c.current q).awake id = taskIsRunnable states id := by
  by_cases hid : id = c.current
  · rw [World.awake, World.set_proc, hid, Function.update_self, hq]
  · rw [World.awake, World.set_proc, Function.update_of_ne hid, ← World.awake, world_awake,
      taskIsRunnable, taskIsRunnable, hothers id hid]

/-- A trap at whose end the process gives its turn away: its slot holds `q` from then on. -/
theorem Step.world_yield (hstep : Step L img c (.trap service cause tval ch) c')
    (hc : Inv L fits c) (hfits : fits → img.Fits) (hno : NoRead c (.trap service cause tval ch))
    (hserve : serve L img service ch (entered L cause tval c.machine) = some r)
    (hr : taskYield after s = some r) (hcurrent : s.sched.currentTask = c.current)
    (hothers : ∀ id, id ≠ c.current →
      s.sched.taskStates id = c.machine.sched.taskStates id)
    (hq : (c'.world L).proc c.current = q)
    (hawake : q.any Process.awake = taskIsRunnable s.sched.taskStates c.current) :
    ((c.world L).set c.current q).yield = some (c'.world L) := by
  have hadv := hstep.advanced_noRead hc hfits hno
  obtain ⟨r', hserve', -, hbehind⟩ := hstep.trap_behind hc hfits hno.safeRead
  obtain rfl := Option.some.inj (hserve'.symm.trans hserve)
  have hstates := taskYield_states hr
  rw [← hbehind.sched] at hstates
  rw [World.yield_of_taskYield hcurrent.symm (world_set_awake hothers hawake) hr, Option.some_inj,
    ← hbehind.sched]
  refine World.ext rfl (funext fun id => ?_)
  change Function.update (c.world L).proc c.current q id = _
  -- the slots of the others are as they were
  by_cases hid : id = c.current
  · rw [hid, Function.update_self, hq]
  · rw [Function.update_of_ne hid]
    refine (hadv.proc_eq hc.memOk hid (fun hruns => hid ?_) ?_ ?_).symm
    · rw [hruns.2]
      exact hstep.current_eq hc hfits hno.safeRead hruns.1
    · rw [(hstates id).1, hothers id hid]
    · rw [(hstates id).2, hothers id hid]

end RiscvKernel
