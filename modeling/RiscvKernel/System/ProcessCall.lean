import RiscvKernel.System.ProcessTrap
import RiscvKernel.System.ProgramSpace

/-!
# What a trap does to the processes

Every trap that stores no input is the action of the world of processes that its cause and the
number in `a7` name (`Step.world_trap`).

* `Step.process_of_exec`, `Step.world_clone`: the calls that make address spaces.
* `Step.world_call`: the calls one by one.
-/

namespace RiscvKernel

open ByteMemory RadixTable Riscv CyclicScan

variable {n : ℕ} {L : Layout n} {img : AppImage} {fits : Prop} {s s₁ : Machine n} {c c' : Config n}
  {id d : Fin n} {service : Service n} {cause tval v : Word} {ch : Byte} {r : Handled n}
  {call : Syscall}

/-! ### Exec -/

/-- A handler that returns lets the task go on with the registers of its trapframe. -/
theorem Step.trap_returned (hstep : Step L img c (.trap service cause tval ch) c')
    (hc : Inv L fits c) (hfits : fits → img.Fits) (hno : NoRead c (.trap service cause tval ch))
    (hserve : serve L img service ch (entered L cause tval c.machine) = some (.returned v s)) :
    c'.Runs c.current ∧ Restored L s.mem c.current v c'.machine.hart := by
  cases hstep with
  | @switched hphase service cause tval ch prev after s₂ h m hserve' =>
    rw [hserve'] at hserve
    cases hserve
  | @returned hphase service cause tval ch v' s₂ h m hserve' hreturn hstack =>
    have heq := hserve'.symm.trans hserve
    cases heq
    have ht := entered_spec (hc.user hphase).2 cause tval
    obtain ⟨hserviced, -, hcurrent⟩ :=
      serve_good ht hc.entered hfits (fun a ha => ⟨ha, hno.safeRead a ha⟩) hserve
    have hsp : (h.reg .sp).toNat = L.taskTrapFrame c.current := by
      rw [hreturn.sp, hserviced.reg, ht.sp]
    refine ⟨⟨hphase, hcurrent.symm⟩, ?_⟩
    obtain ⟨hpriv, hpc, hreg⟩ := restored_of_leave (m := m) hsp
    refine ⟨hpriv, hpc.trans hreturn.a0, fun x => (hreg x).trans ?_⟩
    -- the call has used the kernel stack below the trapframe only
    rw [hserviced.reg, ht.sp] at hstack
    refine loadWord_congr fun b hb => hstack _ fun hmem => ?_
    rw [callStack, Set.mem_Ico] at hmem
    omega

/-- What an `execve` that loads its image has bound, and what is there when it returns. -/
theorem Step.exec_imageBound (hstep : Step L img c (.trap .trapHandler cause tval ch) c')
    (hc : Inv L fits c) (hfits : fits → img.Fits)
    (hcall : (.trapHandler : Service n).call cause c.machine.hart = some .execve)
    (hloads : img.Loads) :
    ∃ (s : Machine n) (maps : List Mapping) (taken rest : List ℕ),
      serve L img .trapHandler ch (entered L cause tval c.machine)
        = some (.returned img.ehdr.eEntry s) ∧
      c'.machine.sched = c.machine.sched ∧
      taken.length ≤ 4 + 3 * (segmentPages img).length ∧
      ImageBound L img c.current maps taken rest (entered L cause tval c.machine) s ∧
      (img.Low → MapsImage img s.mem (taskPageTable L s.mem c.current)) ∧
      SameUser L s c'.machine c.current := by
  have huser : c.phase = .user := by cases hstep <;> assumption
  have ht := entered_spec (hc.user huser).2 cause tval
  have he := ht.entered hc.entered
  have hno : NoRead c (.trap .trapHandler cause tval ch) := noRead_of_call (by simp [hcall])
  obtain ⟨r, hserve, hgood, hbehind⟩ := hstep.trap_behind hc hfits hno.safeRead
  have hexec := hserve
  rw [serve_call ht hcall, Syscall.handler, doSysExecve, Option.bind_eq_some_iff] at hexec
  obtain ⟨⟨v, s⟩, hexec, hr⟩ := hexec
  obtain rfl := Option.some.inj hr
  obtain ⟨free, hspaces⟩ := he.memOk.spaces
  obtain ⟨rfl, maps, taken, rest, ⟨hfree, hlen⟩, hbound⟩ :=
    (he.taskExec_imageBound _ hspaces.isFree hloads).post_of_eq_some hexec
  have hsched : s.sched = c.machine.sched := (taskExec_kept hexec).1.trans ht.sched
  have hlive : s.Live c.current := by
    rw [Machine.Live, hsched]
    exact hc.live
  refine ⟨s, maps, taken, rest, hserve, hbehind.sched.trans hsched, hlen, hbound,
    fun hlow => (hbound.executed hfree hloads.2 hlow).space, ?_⟩
  -- behind the handler only kernel data changes
  exact SameUser.of_kernelWrite hgood.memOk hlive hbehind.changed (fun _ => mem_kernelPart_bounds)
    (hbehind.satp hlive)

/-- An `execve` that loads its image starts the program of the image. -/
theorem Step.process_of_exec (hstep : Step L img c (.trap .trapHandler cause tval ch) c')
    (hc : Inv L fits c) (hfits : fits → img.Fits)
    (hcall : (.trapHandler : Service n).call cause c.machine.hart = some .execve)
    (hloads : img.Loads) (hlow : img.Low) :
    c'.machine.sched = c.machine.sched ∧
      c'.process L c.current = .start img.ehdr.eEntry (imageSpace img) := by
  have hno : NoRead c (.trap .trapHandler cause tval ch) := noRead_of_call (by simp [hcall])
  obtain ⟨s, maps, taken, rest, hserve, hsched, -, hbound, hmaps, huser⟩ :=
    hstep.exec_imageBound hc hfits hcall hloads
  obtain ⟨hruns, -, hpc, hreg⟩ := hstep.trap_returned hc hfits hno hserve
  refine ⟨hsched, ?_⟩
  rw [process_of_runs hruns]
  -- the trapframe has been cleared, but for the stack pointer and the entry point
  refine Process.ext (funext fun x => ?_) hpc ?_ ?_
  · dsimp only [Process.start]
    rw [hreg, hbound.frame, if_neg (regField_ne_epc x)]
    have hfield : regField x = .userSp ↔ x = .sp := by cases x <;> decide
    exact if_congr hfield rfl rfl
  · exact (userSpace_of_sameUser huser).trans (imageSpace_of_mapsImage (hmaps hlow) hlow)
  · have hrunning : c.machine.sched.taskStates c.current = .running := (hc.sched _).mpr rfl
    rw [hsched, hrunning]
    rfl

/-! ### Clone -/

/-- The empty slots are the slots that `task_fork` may take. -/
theorem world_vacant (c : Config n) :
    (c.world L).vacant = allocTaskSlot c.machine.sched.taskStates := by
  rw [World.vacant, allocTaskSlot]
  congr 1
  funext id
  by_cases hlive : c.machine.Live id
  · rw [world_proc_of_live hlive, decide_eq_false hlive]
    rfl
  · rw [world_proc_of_not_live hlive, decide_eq_true (not_not.mp hlive)]
    rfl

/-- The process in the slot of a child. -/
theorem Cloned.process_child (h : Cloned L d c c') (hc : Inv L fits c) (huser : c.phase = .user) :
    c'.machine.Live d ∧ c'.process L d = (c.process L c.current).answer 0 := by
  have hready : c'.machine.sched.taskStates d = .ready := by
    rw [h.sched]
    exact Function.update_self _ _ _
  refine ⟨by rw [Machine.Live, hready]; simp, ?_⟩
  -- its slot was empty, so it is not the current one
  have hwaits : ¬ c'.Runs d := by
    rintro ⟨-, rfl⟩
    have hdead := allocTaskSlot_eq_some h.slot
    rw [Config.current, h.sched] at hdead
    exact hc.live hdead
  rw [process_of_not_runs hwaits, hc.process_current huser]
  refine Process.ext (funext fun x => ?_) ?_ (tableSpace_of_sameSpace h.space) (by rw [hready]; rfl)
  · exact h.reg x
  · rw [Config.savedPc, if_pos h.fresh.ra]
    exact h.pc

/-- A step for the current task that also changes the slot `d` and the state of no other task. -/
theorem Advanced.world_set {p q : Process} (h : Advanced L fits ∅ c c') (hc : Inv L fits c)
    (hcurrent : c'.current = c.current)
    (hothers : ∀ id, id ≠ d → c'.machine.sched.taskStates id = c.machine.sched.taskStates id)
    (hp : (c'.world L).proc c.current = some p) (hq : (c'.world L).proc d = some q) :
    c'.world L = ((c.world L).become p).set d (some q) := by
  refine World.ext hcurrent (funext fun id => ?_)
  rw [World.set_proc, World.become_proc, world_current]
  by_cases hd : id = d
  · rw [hd, Function.update_self, hq]
  rw [Function.update_of_ne hd]
  by_cases hid : id = c.current
  · rw [hid, Function.update_self, hp]
  · -- the step is not taken for any of the others
    rw [Function.update_of_ne hid]
    refine h.proc_eq hc.memOk hid (fun hruns => hid (hruns.2.trans hcurrent)) ?_ ?_
    · rw [hothers id hd]
    · rw [hothers id hd]

/-- A task that clones itself is a process that does. -/
theorem Step.world_clone (hstep : Step L img c (.trap .trapHandler cause tval ch) c')
    (hc : Inv L fits c) (hfits : fits → img.Fits)
    (hcall : (.trapHandler : Service n).call cause c.machine.hart = some .clone) :
    c'.world L = (c.world L).clone (c.process L c.current) := by
  have huser : c.phase = .user := by cases hstep <;> assumption
  have ht := entered_spec (hc.user huser).2 cause tval
  have hno : NoRead c (.trap .trapHandler cause tval ch) := noRead_of_call (by simp [hcall])
  have hnot : ¬ (.trapHandler : Service n).Ends img cause c.machine.hart := by
    simp [Service.Ends, hcall]
  have hadv := hstep.advanced_noRead hc hfits hno
  obtain ⟨r, hserve, -, hbehind⟩ := hstep.trap_behind hc hfits hno.safeRead
  have hfork := hserve
  rw [serve_call ht hcall, Syscall.handler, doSysClone, Option.bind_eq_some_iff] at hfork
  obtain ⟨⟨child, s⟩, hfork, hr⟩ := hfork
  obtain rfl := Option.some.inj hr
  -- the parent goes on with the result of `task_fork`
  have hparent : s.sched.taskStates c.current = c.machine.sched.taskStates c.current →
      c'.process L c.current = (c.process L c.current).answer (forkResult child) := by
    intro hstate
    refine hstep.process_answer hc hfits hno hnot hserve hcall hstate ?_
    exact (tfLoad_tfStore ..).trans (if_pos rfl)
  rw [World.clone, world_vacant]
  rcases (taskFork_spec (ht.entered hc.entered) c.machine.hart.pc).post_of_eq_some hfork with
    ⟨heq, hall⟩ | ⟨d, hd, hslot, hf⟩
  · -- no slot is empty, and the parent is told so
    obtain ⟨rfl, hs⟩ := Prod.mk.inj heq
    have hnone : allocTaskSlot c.machine.sched.taskStates = none := by
      by_contra hsome
      obtain ⟨d, hslot⟩ := Option.ne_none_iff_exists'.mp hsome
      have hdead := allocTaskSlot_eq_some hslot
      rw [← ht.sched] at hdead
      exact hall d hdead
    have hkept : s.sched = c.machine.sched := by rw [hs, ht.sched]
    have hsched : c'.machine.sched = c.machine.sched := hbehind.sched.trans hkept
    rw [hnone, hadv.world_become hc hsched, hparent (by rw [hkept]), forkResult, Option.elim_none]
  · -- the child has got slot `d`
    obtain rfl : child = some d := hd
    have hcloned := cloned_of_step hc hfits huser hcall hfork hstep
    have hdead := allocTaskSlot_eq_some hcloned.slot
    have hne : c.current ≠ d := by
      rintro rfl
      exact hc.live hdead
    rw [ht.sched] at hslot
    have hcurrent : c'.current = c.current := by rw [Config.current, hcloned.sched, Config.current]
    have hothers : ∀ id, id ≠ d →
        c'.machine.sched.taskStates id = c.machine.sched.taskStates id := by
      intro id hid
      rw [hcloned.sched]
      exact Function.update_of_ne hid _ _
    have hlive : c'.machine.Live c.current := by
      rw [Machine.Live, hothers _ hne]
      exact hc.live
    have hstate : s.sched.taskStates c.current = c.machine.sched.taskStates c.current := by
      rw [hf.taskStates_of_ne hne, ht.sched]
    obtain ⟨hborn, hchild⟩ := hcloned.process_child hc huser
    rw [hslot]
    refine hadv.world_set hc hcurrent hothers ?_ ?_
    · rw [world_proc_of_live hlive, hparent hstate, forkResult, Option.elim_some]
    · rw [world_proc_of_live hborn, hchild]

/-! ### System calls -/

/-- A process that goes on behind a trap that changes nothing else. -/
theorem Step.world_skip (hstep : Step L img c (.trap service cause tval ch) c')
    (hc : Inv L fits c) (hfits : fits → img.Fits) (hno : NoRead c (.trap service cause tval ch))
    (hnot : ¬ service.Ends img cause c.machine.hart)
    (hserve : serve L img service ch (entered L cause tval c.machine) = some r)
    (hread : service.call cause c.machine.hart ≠ some .read)
    (hclone : service.call cause c.machine.hart ≠ some .clone)
    (hsched : r.machine.sched = c.machine.sched) :
    c'.world L = (c.world L).become { c.process L c.current with
      pc := service.resumePc cause (c.process L c.current).pc } := by
  have huser : c.phase = .user := by cases hstep <;> assumption
  obtain ⟨r', hserve', -, hbehind⟩ := hstep.trap_behind hc hfits hno.safeRead
  obtain rfl := Option.some.inj (hserve'.symm.trans hserve)
  have hrunning : c.machine.sched.taskStates c.current = .running := (hc.sched _).mpr rfl
  obtain ⟨-, hprocess⟩ := hstep.process_skip hc hfits hno hnot hserve hread hclone
  rw [(hstep.advanced_noRead hc hfits hno).world_become hc (hbehind.sched.trans hsched), hprocess,
    hsched, hrunning, hc.process_current huser]
  rfl

/-- A task that yields at the end of its trap is a process that does. -/
theorem Step.world_yield_running (hstep : Step L img c (.trap service cause tval ch) c')
    (hc : Inv L fits c) (hfits : fits → img.Fits) (hno : NoRead c (.trap service cause tval ch))
    (hnot : ¬ service.Ends img cause c.machine.hart)
    (hserve : serve L img service ch (entered L cause tval c.machine) = some r)
    (hread : service.call cause c.machine.hart ≠ some .read)
    (hclone : service.call cause c.machine.hart ≠ some .clone) {after : Option Word}
    (hr : taskYield after s = some r) (hsched : s.sched = c.machine.sched) :
    ((c.world L).become { c.process L c.current with
      pc := service.resumePc cause (c.process L c.current).pc }).yield = some (c'.world L) := by
  have huser : c.phase = .user := by cases hstep <;> assumption
  have hrunning : s.sched.taskStates c.current = .running := by
    rw [hsched]
    exact (hc.sched _).mpr rfl
  have hawake : r.machine.sched.taskStates c.current ≠ .sleeping := by
    rw [ne_eq, (taskYield_states hr c.current).2, hrunning]
    simp
  obtain ⟨hlive, hprocess⟩ := hstep.process_skip hc hfits hno hnot hserve hread hclone
  refine hstep.world_yield hc hfits hno hserve hr (congrArg Sched.currentTask hsched)
    (fun id _ => by rw [hsched]) ?_ ?_
  · rw [world_proc_of_live hlive, hprocess, hc.process_current huser]
    simp only [hawake, ne_eq, not_false_iff, decide_true]
  · rw [taskIsRunnable, hrunning, hc.process_current huser]
    rfl

/-- A read that stores no character returns `-1` and changes nothing else. -/
theorem doSysRead_refused {arg0 arg1 epc : Word} {tf : ℕ}
    (htarget : readTarget arg0 arg1 (tfLoad s.mem tf .a2) = ∅)
    (hr : doSysRead ch arg0 arg1 epc tf s = some r) :
    r.machine.sched = s.sched ∧ tfLoad r.machine.mem tf .a0 = -1 := by
  obtain ⟨m, v, heq, hcases⟩ := doSysRead_spec ch arg0 arg1 epc tf s
  obtain rfl := Option.some.inj (heq.symm.trans hr)
  rcases hcases with ⟨-, -, rfl⟩ | ⟨hmem, -⟩
  · exact ⟨rfl, (tfLoad_tfStore ..).trans (if_pos rfl)⟩
  · rw [htarget] at hmem
    exact absurd hmem (Set.notMem_empty _)

/-- `task_exit` empties the slot of the current task and yields. -/
theorem exists_taskExit_eq (L : Layout n) (s : Machine n) :
    ∃ s₂, taskExit L s = taskYield none s₂ ∧ s₂.sched = { s.sched with
      taskStates := Function.update s.sched.taskStates s.sched.currentTask .dead } :=
  ⟨_, rfl, rfl⟩

/-- A read that stores no character is one that the process has not asked for. -/
theorem Step.world_read (hstep : Step L img c (.trap .trapHandler cause tval ch) c')
    (hc : Inv L fits c) (hfits : fits → img.Fits)
    (hno : NoRead c (.trap .trapHandler cause tval ch))
    (hcall : (.trapHandler : Service n).call cause c.machine.hart = some .read) :
    (c.world L).call img (c.process L c.current) .read = some (c'.world L) := by
  have huser : c.phase = .user := by cases hstep <;> assumption
  have ht := entered_spec (hc.user huser).2 cause tval
  have hnot : ¬ (.trapHandler : Service n).Ends img cause c.machine.hart := by
    simp [Service.Ends, hcall]
  obtain ⟨r, hserve, -, hbehind⟩ := hstep.trap_behind hc hfits hno.safeRead
  have hhandler := hserve
  rw [serve_call ht hcall] at hhandler
  -- both the process and the handler look at the arguments of the call
  have hempty : (.trapHandler : Service n).stores cause c.machine.hart = ∅ := hno
  have hrefused : ¬ (c.process L c.current).WantsInput := by
    rw [hc.process_current huser]
    rintro ⟨h0, h1, h2⟩
    refine Set.notMem_empty (c.machine.hart.reg .a1).toNat ?_
    rw [← hempty]
    exact ⟨hcall, h0, h1, h2, rfl⟩
  have htarget : readTarget (c.machine.hart.reg .a0) (c.machine.hart.reg .a1)
      (tfLoad (entered L cause tval c.machine).mem (L.taskTrapFrame c.current) .a2) = ∅ := by
    have hcount : tfLoad (entered L cause tval c.machine).mem (L.taskTrapFrame c.current) .a2
        = c.machine.hart.reg .a2 := ht.frame .a2
    rw [hcount, Set.eq_empty_iff_forall_notMem]
    intro a ha
    refine Set.notMem_empty a ?_
    rw [← hempty]
    exact ⟨hcall, ha⟩
  obtain ⟨hkept, hv⟩ := doSysRead_refused htarget hhandler
  rw [ht.sched] at hkept
  rw [World.call, if_neg hrefused, Option.some_inj,
    (hstep.advanced_noRead hc hfits hno).world_become hc (hbehind.sched.trans hkept),
    hstep.process_answer hc hfits hno hnot hserve hcall (by rw [hkept]) hv]

/-- A process that exits leaves its slot empty, and its turn to the next one. -/
theorem Step.world_exit (hstep : Step L img c (.trap .trapHandler cause tval ch) c')
    (hc : Inv L fits c) (hfits : fits → img.Fits)
    (hno : NoRead c (.trap .trapHandler cause tval ch))
    (hcall : (.trapHandler : Service n).call cause c.machine.hart = some .exit) :
    ((c.world L).set c.current none).yield = some (c'.world L) := by
  have huser : c.phase = .user := by cases hstep <;> assumption
  have ht := entered_spec (hc.user huser).2 cause tval
  obtain ⟨r, hserve, -, -⟩ := hstep.trap_behind hc hfits hno.safeRead
  have hhandler := hserve
  rw [serve_call ht hcall] at hhandler
  obtain ⟨s₂, hexit, hsched⟩ := exists_taskExit_eq L (entered L cause tval c.machine)
  have hyield : taskYield none s₂ = some r := hexit.symm.trans hhandler
  rw [ht.sched] at hsched
  -- `task_exit` marks the slot before it asks the scheduler
  have hdead : s₂.sched.taskStates c.current = .dead := by
    rw [hsched]
    exact Function.update_self _ _ _
  have hcurrent : s₂.sched.currentTask = c.current := by rw [hsched, Config.current]
  refine hstep.world_yield hc hfits hno hserve hyield hcurrent (fun id hid => ?_)
    (world_proc_of_not_live (hstep.not_live_of_exit hc hfits hcall)) ?_
  · rw [hsched]
    exact Function.update_of_ne hid _ _
  · rw [taskIsRunnable, hdead]
    rfl

/-- An `execve` starts the program of the image, or the process goes on. -/
theorem Step.world_execve (hstep : Step L img c (.trap .trapHandler cause tval ch) c')
    (hc : Inv L fits c) (hfits : fits → img.Fits) (hlow : img.Loads → img.Low)
    (hno : NoRead c (.trap .trapHandler cause tval ch))
    (hcall : (.trapHandler : Service n).call cause c.machine.hart = some .execve) :
    (c.world L).call img (c.process L c.current) .execve = some (c'.world L) := by
  rw [World.call]
  split_ifs with hloads
  · -- the process is a new program
    obtain ⟨hsched, hprocess⟩ := hstep.process_of_exec hc hfits hcall hloads (hlow hloads)
    rw [(hstep.advanced_noRead hc hfits hno).world_become hc hsched, hprocess]
  · -- the image is refused, and the call is passed over
    have huser : c.phase = .user := by cases hstep <;> assumption
    have ht := entered_spec (hc.user huser).2 cause tval
    have hnot : ¬ (.trapHandler : Service n).Ends img cause c.machine.hart := by
      simp [Service.Ends, hcall, hloads]
    obtain ⟨r, hserve, -, -⟩ := hstep.trap_behind hc hfits hno.safeRead
    have hhandler := hserve
    rw [serve_call ht hcall, Syscall.handler, doSysExecve, Option.bind_eq_some_iff] at hhandler
    obtain ⟨⟨v, s⟩, hexec, hr⟩ := hhandler
    obtain rfl := Option.some.inj hr
    have hsched : s.sched = c.machine.sched := (taskExec_kept hexec).1.trans ht.sched
    rw [hstep.world_skip hc hfits hno hnot hserve (by simp [hcall]) (by simp [hcall]) hsched,
      resumePc_of_call hcall]
    rfl

/-- A system call does to the processes what the call of this name does. -/
theorem Step.world_call (hstep : Step L img c (.trap .trapHandler cause tval ch) c')
    (hc : Inv L fits c) (hfits : fits → img.Fits) (hlow : img.Loads → img.Low)
    (hno : NoRead c (.trap .trapHandler cause tval ch))
    (hcall : (.trapHandler : Service n).call cause c.machine.hart = some call) :
    (c.world L).call img (c.process L c.current) call = some (c'.world L) := by
  have huser : c.phase = .user := by cases hstep <;> assumption
  have ht := entered_spec (hc.user huser).2 cause tval
  have hskip : { c.process L c.current with
      pc := (.trapHandler : Service n).resumePc cause (c.process L c.current).pc }
      = (c.process L c.current).skip := by
    rw [resumePc_of_call hcall]
    rfl
  obtain ⟨r, hserve, -, -⟩ := hstep.trap_behind hc hfits hno.safeRead
  have hhandler := hserve
  rw [serve_call ht hcall] at hhandler
  cases call with
  | read => exact hstep.world_read hc hfits hno hcall
  | exit => exact hstep.world_exit hc hfits hno hcall
  | clone => exact congrArg some (hstep.world_clone hc hfits hcall).symm
  | execve => exact hstep.world_execve hc hfits hlow hno hcall
  | write =>
    have hnot : ¬ (.trapHandler : Service n).Ends img cause c.machine.hart := by
      simp [Service.Ends, hcall]
    -- `do_sys_write` only prints
    obtain rfl := Option.some.inj hhandler
    rw [hstep.world_skip hc hfits hno hnot hserve (by simp [hcall]) (by simp [hcall]) ht.sched,
      hskip]
    rfl
  | schedYield =>
    have hnot : ¬ (.trapHandler : Service n).Ends img cause c.machine.hart := by
      simp [Service.Ends, hcall]
    rw [World.call, ← hskip]
    exact hstep.world_yield_running hc hfits hno hnot hserve (by simp [hcall]) (by simp [hcall])
      hhandler ht.sched

/-! ### Traps -/

/-- A process that wakes another one up goes on, and the other one takes its turns again. -/
theorem Step.world_wakeup (hstep : Step L img c (.trap (.wakeup id) cause tval ch) c')
    (hc : Inv L fits c) (hfits : fits → img.Fits) :
    ((c.world L).become (c.process L c.current).skip).wakeup id = some (c'.world L) := by
  have huser : c.phase = .user := by cases hstep <;> assumption
  have ht := entered_spec (hc.user huser).2 cause tval
  have hno : NoRead c (.trap (.wakeup id) cause tval ch) := rfl
  have hnot : ¬ (.wakeup id : Service n).Ends img cause c.machine.hart := by
    simp [Service.Ends, Service.call]
  obtain ⟨r, hserve, -, hbehind⟩ := hstep.trap_behind hc hfits hno.safeRead
  have hadv := hstep.advanced_noRead hc hfits hno
  have hwoken := hserve
  rw [serve] at hwoken
  split_ifs at hwoken with hsleeps
  have hr : r.machine.sched = (taskWakeup id (entered L cause tval c.machine)).sched := by
    rw [← Option.some.inj hwoken, Handled.machine]
  rw [ht.sched] at hsleeps
  have hsched : c'.machine.sched = { c.machine.sched with
      taskStates := Function.update c.machine.sched.taskStates id .ready } := by
    rw [hbehind.sched, hr, ← ht.sched]
    rfl
  have hrunning : c.machine.sched.taskStates c.current = .running := (hc.sched _).mpr rfl
  have hne : id ≠ c.current := by
    rintro rfl
    rw [hrunning] at hsleeps
    cases hsleeps
  have hcurrent : c'.current = c.current := by rw [Config.current, hsched, Config.current]
  have hready : c'.machine.sched.taskStates id = .ready := by
    rw [hsched]
    exact Function.update_self _ _ _
  have hothers : ∀ j, j ≠ id → c'.machine.sched.taskStates j = c.machine.sched.taskStates j := by
    intro j hj
    rw [hsched]
    exact Function.update_of_ne hj _ _
  -- the process that sleeps
  have hlive : c.machine.Live id := by
    rw [Machine.Live, hsleeps]
    simp
  have hasleep : (c.process L id).awake = false := by
    rw [Config.process, hsleeps]
    rfl
  have hproc : ((c.world L).become (c.process L c.current).skip).proc id
      = some (c.process L id) := by
    rw [World.become_proc, world_current, Function.update_of_ne hne, world_proc_of_live hlive]
  rw [World.wakeup, hproc, Option.bind_some, hasleep, if_neg (by simp), Option.some_inj]
  have hlive' : c'.machine.Live id := by
    rw [Machine.Live, hready]
    simp
  have hruns : ¬ c'.Runs id := fun hruns => hne (hruns.2.trans hcurrent)
  obtain ⟨hgoes, hprocess⟩ := hstep.process_skip hc hfits hno hnot hserve
    (by simp [Service.call]) (by simp [Service.call])
  refine (hadv.world_set hc hcurrent hothers ?_ ?_).symm
  · rw [world_proc_of_live hgoes, hprocess, ← hbehind.sched, hothers _ hne.symm, hrunning,
      hc.process_current huser]
    rfl
  · rw [world_proc_of_live hlive', hadv.process_awake hc.memOk hne hlive hruns, hready]
    rfl

/-- A process that goes to sleep. -/
theorem Step.world_sleep (hstep : Step L img c (.trap .sleep cause tval ch) c')
    (hc : Inv L fits c) (hfits : fits → img.Fits) :
    ((c.world L).become { (c.process L c.current).skip with awake := false }).yield
      = some (c'.world L) := by
  have huser : c.phase = .user := by cases hstep <;> assumption
  have ht := entered_spec (hc.user huser).2 cause tval
  have hno : NoRead c (.trap .sleep cause tval ch) := rfl
  have hnot : ¬ (.sleep : Service n).Ends img cause c.machine.hart := by
    simp [Service.Ends, Service.call]
  obtain ⟨r, hserve, -, -⟩ := hstep.trap_behind hc hfits hno.safeRead
  have hyield := hserve
  rw [serve, taskSleep] at hyield
  have hcurrent : (entered L cause tval c.machine).sched.currentTask = c.current := by
    rw [ht.sched, Config.current]
  rw [hcurrent] at hyield
  have hsleeps : ((entered L cause tval c.machine).setState c.current .sleeping).sched.taskStates
      c.current = .sleeping := by
    rw [Machine.setState_taskStates, Function.update_self]
  -- `task_yield` does not wake it up
  have hasleep := (taskYield_states hyield c.current).2.mpr hsleeps
  obtain ⟨hlive, hprocess⟩ := hstep.process_skip hc hfits hno hnot hserve
    (by simp [Service.call]) (by simp [Service.call])
  refine hstep.world_yield hc hfits hno hserve hyield ?_ (fun id hid => ?_) ?_ ?_
  · rw [Machine.setState_currentTask, hcurrent]
  · rw [Machine.setState_taskStates, Function.update_of_ne hid, ht.sched]
  · rw [world_proc_of_live hlive, hprocess, hasleep]
    rfl
  · rw [taskIsRunnable, hsleeps]
    rfl

/-- An interrupt, or a call with an unknown number: the process gives its turn away or goes on. -/
theorem Step.world_noCall (hstep : Step L img c (.trap .trapHandler cause tval ch) c')
    (hc : Inv L fits c) (hfits : fits → img.Fits)
    (hnone : (.trapHandler : Service n).call cause c.machine.hart = none) :
    (c.world L).trap img (c.process L c.current) cause .trapHandler = some (c'.world L) := by
  have huser : c.phase = .user := by cases hstep <;> assumption
  have ht := entered_spec (hc.user huser).2 cause tval
  have hno : NoRead c (.trap .trapHandler cause tval ch) := noRead_of_call (by simp [hnone])
  have hnot : ¬ (.trapHandler : Service n).Ends img cause c.machine.hart := by
    simp [Service.Ends, hnone]
  obtain ⟨r, hserve, -, -⟩ := hstep.trap_behind hc hfits hno.safeRead
  have hhandler := hserve
  rw [serve, ht.cause_arg, ht.arg0_arg, ht.arg1_arg, ht.sysNum_arg, ht.tf_arg] at hhandler
  have hskip := fun hsched => hstep.world_skip hc hfits hno hnot hserve (by simp [hnone])
    (by simp [hnone]) hsched
  -- behind an interrupt the program goes on where it was
  have hsame : isInterrupt cause = true → (c.world L).become { c.process L c.current with
      pc := (.trapHandler : Service n).resumePc cause (c.process L c.current).pc }
      = c.world L := by
    intro hint
    rw [Service.resumePc, if_pos hint]
    refine World.ext rfl ?_
    rw [World.become_proc, Function.update_eq_self_iff]
    exact hc.world_proc_current.symm
  rcases trapHandler_cases hhandler with ⟨hint, htimer, hyield⟩ | ⟨hint, htimer, rfl⟩ |
    ⟨call, hsome, -⟩ | ⟨hint, hnone', rfl⟩
  · have hworld := hstep.world_yield_running hc hfits hno hnot hserve (by simp [hnone])
      (by simp [hnone]) hyield ht.sched
    rw [hsame hint] at hworld
    rw [World.trap, if_pos hint, if_pos htimer, hworld]
  · have hworld := hskip ht.sched
    rw [hsame hint] at hworld
    rw [World.trap, if_pos hint, if_neg htimer, hworld]
  · rw [Service.call, hsome] at hnone
    cases hnone
  · have ha7 : (c.process L c.current).reg .a7 = c.machine.hart.reg .a7 := by
      rw [hc.process_current huser]
    have hcode := exceptionCode_of_trapHandler hhandler hint
    rw [World.trap_of_unknown hint hcode (by rw [ha7, hnone']), hskip ht.sched, Service.resumePc,
      hint, if_neg (by simp)]
    rfl

/-- A trap that stores no input is the action of its name. -/
theorem Step.world_trap (hstep : Step L img c (.trap service cause tval ch) c')
    (hc : Inv L fits c) (hfits : fits → img.Fits) (hlow : img.Loads → img.Low)
    (hno : NoRead c (.trap service cause tval ch)) :
    (c.world L).next img (.trap service cause) = some (c'.world L) := by
  have huser : c.phase = .user := by cases hstep <;> assumption
  rw [World.next, hc.world_proc_current, Option.bind_some, World.act]
  cases service with
  | sleep => exact hstep.world_sleep hc hfits
  | wakeup id => exact hstep.world_wakeup hc hfits
  | trapHandler =>
    have ha7 : (c.process L c.current).reg .a7 = c.machine.hart.reg .a7 := by
      rw [hc.process_current huser]
    cases hcall : syscallOf cause (c.machine.hart.reg .a7) with
    | some call =>
      rw [World.trap_of_call (by rw [ha7, hcall])]
      exact hstep.world_call hc hfits hlow hno hcall
    | none => exact hstep.world_noCall hc hfits hcall

end RiscvKernel
