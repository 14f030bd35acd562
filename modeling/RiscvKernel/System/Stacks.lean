import RiscvKernel.System.Clone
import RiscvKernel.System.Consistency
import RiscvKernel.System.ExecImage

/-!
# The record of the stack pages

`task_user_stacks` records the stack page of every task a second time. `task_init` and `task_fork`
set it, but `task_exec`, which gives the task a new stack page, does not.

* `StackRecorded`: the record of a task names the page that its page table maps.
* `Step.stackRecorded`: all steps keep this, but for an `execve` that loads its image.
* `Step.not_stackRecorded`: such an `execve` always breaks it.
* `userStack_recorded_iff`: runs in which the task itself loads no image.
-/

namespace RiscvKernel

open ByteMemory RadixTable Riscv Relation

variable {n : ℕ}

/-- `task_user_stacks[id]` is the page that the page table of the task maps at
`USER_STACK_PAGE_VA`. -/
def StackRecorded (L : Layout n) (s : Machine n) (id : Fin n) : Prop :=
  ∃ e, leafEntry s.mem (taskPageTable L s.mem id) userStackPageVa = some e ∧
    s.taskUserStacks id = pteToPa e

/-- Task `id` replaces its program by the embedded image. -/
def LoadsImage (img : AppImage) (id : Fin n) (c : Config n) : Event n → Prop
  | .trap service cause _ _ =>
    c.current = id ∧ service.call cause c.machine.hart = some .execve ∧ img.Loads
  | _ => False

variable {L : Layout n} {img : AppImage} {fits : Prop} {c c' : Config n} {e : Event n} {id : Fin n}
  {s s' s₁ : Machine n} {cause tval epc : Word} {ch : Byte} {service : Service n} {r : Handled n}
  {tf : ℕ} {v : Word}

theorem LoadsImage.current_eq (h : LoadsImage img id c e) : c.current = id := by
  cases e with
  | trap => exact h.1
  | compute | store | resume => cases h

theorem StackRecorded.congr (h : StackRecorded L s id)
    (hpgd : taskPageTable L s'.mem id = taskPageTable L s.mem id)
    (hentry : ∀ va, leafEntry s'.mem (taskPageTable L s.mem id) va
      = leafEntry s.mem (taskPageTable L s.mem id) va)
    (hstack : s'.taskUserStacks id = s.taskUserStacks id) : StackRecorded L s' id := by
  obtain ⟨e, he, hrecord⟩ := h
  refine ⟨e, ?_, hstack.trans hrecord⟩
  rw [hpgd, hentry, he]

/-! ### Tasks that come into use and go out of use -/

/-- `task_exec` changes neither the states of the tasks nor the records of their stack pages. -/
theorem taskExec_kept (h : taskExec L img epc tf s = some (v, s')) :
    s'.sched = s.sched ∧ s'.taskUserStacks = s.taskUserStacks := by
  unfold taskExec at h
  dsimp only at h
  split_ifs at h with hmagic
  · split at h
    · obtain ⟨-, rfl⟩ := Prod.mk.inj (Option.some.inj h)
      exact ⟨rfl, rfl⟩
    · obtain ⟨⟨q, t⟩, -, h⟩ := Option.bind_eq_some_iff.mp h
      obtain ⟨-, rfl⟩ := Prod.mk.inj (Option.some.inj h)
      exact ⟨rfl, rfl⟩
  · obtain ⟨-, rfl⟩ := Prod.mk.inj (Option.some.inj h)
    exact ⟨rfl, rfl⟩

/-- Setting the state of a slot in use brings no other slot into use. -/
theorem live_of_setState {j : Fin n} {state : TaskState} (h : (s.setState j state).Live id)
    (hj : state ≠ .dead → s.Live j) : s.Live id := by
  rw [Machine.Live, Machine.setState_taskStates] at h
  by_cases hid : id = j
  · rw [hid, Function.update_self] at h
    rw [hid]
    exact hj h
  · rwa [Function.update_of_ne hid] at h

/-- No slot comes into use when `task_yield` is called. -/
theorem taskYield_live {after : Option Word} (h : taskYield after s = some r)
    (hlive : r.machine.Live id) : s.Live id := by
  rcases taskYield_cases h with ⟨v, -, rfl, -⟩ | ⟨next, -, hrun, rfl⟩
  · exact hlive
  · exact fun hdead => hlive ((schedPrepareSwitch_eq_dead hrun id).mpr hdead)

/-- Only the clone system call brings a slot into use. -/
theorem serve_live (ht : TrapTaken L c.current cause c.machine s₁) (hc : Inv L fits c)
    (hcall : service.call cause c.machine.hart ≠ some .clone)
    (hr : serve L img service ch s₁ = some r) (hlive : r.machine.Live id) : s₁.Live id := by
  have h₁ := ht.entered hc.entered
  cases service with
  | trapHandler =>
    rw [serve, ht.cause_arg, ht.arg0_arg, ht.arg1_arg, ht.sysNum_arg, ht.tf_arg] at hr
    rcases trapHandler_cases hr with ⟨-, -, hyield⟩ | ⟨-, -, rfl⟩ | ⟨call, hsyscall, hr⟩ |
      ⟨-, -, rfl⟩
    · exact taskYield_live hyield hlive
    · exact hlive
    · cases call with
      | read =>
        obtain ⟨m, v, heq, -⟩ := doSysRead_spec ch (c.machine.hart.reg .a0)
          (c.machine.hart.reg .a1) (s₁.hart.reg .a1) (L.taskTrapFrame c.current) s₁
        obtain rfl := Option.some.inj (heq.symm.trans hr)
        exact hlive
      | write =>
        obtain rfl := Option.some.inj hr
        exact hlive
      | schedYield => exact taskYield_live hr hlive
      | exit =>
        -- the caller goes out of use, and no slot comes into use
        rw [Syscall.handler, doSysExit, taskExit] at hr
        have hbefore := live_of_setState (taskYield_live hr hlive) fun hne => absurd rfl hne
        exact hbefore
      | clone => exact absurd hsyscall hcall
      | execve =>
        rw [Syscall.handler, doSysExecve, Option.bind_eq_some_iff] at hr
        obtain ⟨⟨v, s'⟩, hexec, hr⟩ := hr
        obtain rfl := Option.some.inj hr
        rwa [Handled.machine, Machine.Live, (taskExec_kept hexec).1] at hlive
    · exact hlive
  | sleep =>
    refine live_of_setState (taskYield_live hr hlive) fun _ => ?_
    rw [h₁.current]
    exact h₁.live
  | wakeup j =>
    rw [serve] at hr
    split_ifs at hr with hj
    obtain rfl := Option.some.inj hr
    refine live_of_setState hlive fun _ => ?_
    -- only a sleeping task is woken, and it was in use
    rw [Machine.Live, hj]
    simp

/-- A task that goes on after a switch keeps its user memory, and all tasks their states. -/
theorem Step.resume_kept (hstep : Step L img c .resume c') (hc : Inv L fits c) :
    c'.machine.sched = c.machine.sched ∧ c'.machine.taskUserStacks = c.machine.taskUserStacks ∧
      SameUser L c.machine c'.machine c.current := by
  cases hstep with
  | fresh hphase hra =>
    obtain ⟨-, -, hsp⟩ | ⟨k, -, -, hra', -⟩ := hc.resume_cases hphase
    · exact ⟨rfl, rfl, SameUser.of_mem (trapReturn_spec hsp (frame_lt L _)).2⟩
    · exact absurd (hra'.symm.trans hra) L.returns_ne
  | @tail hphase k v h m hra hsuspended hmatches hafter hsp ha0 hcsr hpriv hstack =>
    obtain ⟨-, hra', -⟩ | ⟨k', hk', hleft, -, -⟩ := hc.resume_cases hphase
    · exact absurd (hra.symm.trans hra') L.returns_ne
    obtain rfl := Option.some.inj (hsuspended.symm.trans hk')
    rw [hleft.frame] at hsp hstack
    have hchanged : ChangedIn (L.stackRange c.current) c.machine.mem (leave h m).2 := by
      rw [(leave_spec (m := m) hsp (frame_lt L _)).1]
      exact (hstack.mono fun a ha => callStack_subset ha).trans (changedIn_frame L _ _ _ _)
    exact ⟨rfl, rfl, SameUser.of_kernelWrite hc.memOk hc.live hchanged
      (fun _ => Layout.mem_stackRange_bounds)
      (contextLoad_congr (fun a ha => hchanged a (Layout.contextRange_not_stack ha)) .satp)⟩
  | lost hphase hfresh htail =>
    obtain ⟨-, hra, -⟩ | ⟨k, hk, -, hra, hmatches⟩ := hc.resume_cases hphase
    · exact absurd hra hfresh
    · exact absurd ⟨hra, k, hk, hmatches⟩ htail

theorem Forked.taskStates_of_ne {d : Fin n} (h : Forked L fits tf epc d s s') (hne : id ≠ d) :
    s'.sched.taskStates id = s.sched.taskStates id := by
  rw [h.sched]
  exact Function.update_of_ne hne _ _

/-- A slot that comes into use holds a clone. -/
theorem Step.cloned_of_born (hstep : Step L img c e c') (hc : Inv L fits c)
    (hfits : fits → img.Fits) (hno : NoRead c e) (hdead : ¬ c.machine.Live id)
    (hlive : c'.machine.Live id) : Cloned L id c c' := by
  have hadv := hstep.advanced hc hfits hno.safeRead
  cases e with
  | compute reg pc =>
    cases hstep
    exact absurd hlive hdead
  | store va b =>
    cases hstep
    exact absurd hlive hdead
  | resume =>
    rw [Machine.Live, (hstep.resume_kept hc).1] at hlive
    exact absurd hlive hdead
  | trap service cause tval ch =>
    have huser : c.phase = .user := by cases hstep <;> assumption
    have ht := entered_spec (hc.user huser).2 cause tval
    obtain ⟨r, hserve, hgood, hbehind⟩ := hstep.trap_behind hc hfits hno.safeRead
    rw [Machine.Live, hbehind.sched] at hlive
    -- of all services only `clone` brings a slot into use
    by_cases hcall : service.call cause c.machine.hart = some .clone
    · cases service with
      | trapHandler =>
        have hserve' := hserve
        rw [serve_call ht hcall, Syscall.handler, doSysClone, Option.bind_eq_some_iff] at hserve'
        obtain ⟨⟨child, s⟩, hfork, hr⟩ := hserve'
        obtain rfl := Option.some.inj hr
        rcases (taskFork_spec (ht.entered hc.entered) c.machine.hart.pc).post_of_eq_some hfork with
          ⟨heq, -⟩ | ⟨d, hd, -, hf⟩
        · obtain ⟨-, rfl⟩ := Prod.mk.inj heq
          exact absurd ((ht.live_iff id).mp hlive) hdead
        · obtain rfl : child = some d := hd
          -- the fork changes the state of the child only
          have hid : id = d := by
            by_contra hne
            apply hdead
            rw [← ht.live_iff, Machine.Live]
            have hstates := hf.taskStates_of_ne hne
            rwa [← hstates]
          rw [hid]
          exact cloned_of_step hc hfits huser hcall hfork hstep
      | sleep => cases hcall
      | wakeup j => cases hcall
    · exact absurd ((ht.live_iff id).mp (serve_live ht hc hcall hserve hlive)) hdead

/-- A task that exits is not in use any more. -/
theorem Step.not_live_of_exit (hstep : Step L img c (.trap service cause tval ch) c')
    (hc : Inv L fits c) (hfits : fits → img.Fits)
    (hcall : service.call cause c.machine.hart = some .exit) : ¬ c'.machine.Live c.current := by
  have huser : c.phase = .user := by cases hstep <;> assumption
  have ht := entered_spec (hc.user huser).2 cause tval
  obtain ⟨r, hserve, hgood, hbehind⟩ :=
    hstep.trap_behind hc hfits (noRead_of_call (by simp [hcall])).safeRead
  cases service with
  | trapHandler =>
    rw [serve_call ht hcall, Syscall.handler, doSysExit, taskExit] at hserve
    -- nothing is returned, so another task was switched to
    rcases taskYield_cases hserve with ⟨v, hv, -⟩ | ⟨next, -, -, rfl⟩
    · cases hv
    · obtain ⟨-, -, -, -, hafter⟩ := hgood
      rw [Machine.Live, hbehind.sched]
      exact fun hlive => hafter hlive rfl
  | sleep => cases hcall
  | wakeup j => cases hcall

/-! ### Steps -/

/-- A step after which the task is in use has recorded its stack page, unless the task has loaded
an image. -/
theorem Step.stackRecorded (hstep : Step L img c e c') (hc : Inv L fits c)
    (hfits : fits → img.Fits) (hno : NoRead c e) (hloads : ¬ LoadsImage img id c e)
    (h : c.machine.Live id → StackRecorded L c.machine id) (hlive : c'.machine.Live id) :
    StackRecorded L c'.machine id := by
  by_cases hbefore : c.machine.Live id
  swap
  · -- a task that this step makes has its stack page recorded by the fork
    exact (hstep.cloned_of_born hc hfits hno hbefore hlive).userStack
  have hrecorded := h hbefore
  by_cases hid : id = c.current
  swap
  · -- another task than the current one is left alone
    have hspared := (hstep.advanced hc hfits hno.safeRead).onBehalf.spared id hid hbefore
    exact hrecorded.congr hspared.pgd hspared.entry hspared.userStack
  subst hid
  cases e with
  | compute reg pc =>
    cases hstep
    exact hrecorded
  | store va b =>
    cases hstep with
    | store hphase b hentry hw =>
      rw [hc.pgd_eq] at hentry
      -- a store of the task misses its own tables and the kernel data
      obtain ⟨-, hout, -⟩ := physAddr_apart hc.memOk hc.live hentry
        ((hc.memOk.leafOk hc.live hentry).kernelEnd_le hw)
      have hspared := Spared.of_store hc.memOk hc.live hout b
      exact hrecorded.congr hspared.pgd hspared.entry hspared.userStack
  | resume =>
    obtain ⟨-, hstack, huser⟩ := hstep.resume_kept hc
    exact hrecorded.congr huser.pgd huser.entry (by rw [hstack])
  | trap service cause tval ch =>
    by_cases hends : service.Ends img cause c.machine.hart
    · rcases hends with hexit | hexec
      · exact absurd hlive (hstep.not_live_of_exit hc hfits hexit)
      · exact absurd ⟨rfl, hexec⟩ hloads
    · -- a service after which the task goes on keeps the entry and the record
      obtain ⟨huser, hstack⟩ := hstep.trap_sameUser hc hfits hno hends
      exact hrecorded.congr huser.pgd huser.entry hstack

/-- The leaf entries of a page table with an image name pages that were free. -/
theorem ImageBound.kernelEnd_le {maps : List Mapping} {taken rest : List ℕ} {va w : Word}
    (h : ImageBound L img id maps taken rest s s')
    (hw : leafEntry s'.mem (taskPageTable L s'.mem id) va = some w) :
    L.kernelEnd ≤ (pteToPa w).toNat := by
  obtain ⟨x, hx, -, rfl⟩ := exists_of_leafEntry h.image.built hw
  rw [(h.image.built.ok x hx).pteToPa_entry]
  exact (h.image.loaded x hx).loaded.frame

/-- An `execve` that loads its image leaves a record of the old stack page, which is free now. -/
theorem Step.not_stackRecorded (hstep : Step L img c e c') (hc : Inv L fits c)
    (hfits : fits → img.Fits) (hno : NoRead c e) (hloads : LoadsImage img id c e)
    (h : StackRecorded L c.machine id) : ¬ StackRecorded L c'.machine id := by
  cases e with
  | compute => cases hloads
  | store => cases hloads
  | resume => cases hloads
  | trap service cause tval ch =>
  obtain ⟨rfl, hcall, hload⟩ := hloads
  cases service with
  | sleep => cases hcall
  | wakeup j => cases hcall
  | trapHandler =>
  have huser : c.phase = .user := by cases hstep <;> assumption
  have ht := entered_spec (hc.user huser).2 cause tval
  obtain ⟨r, hserve, hgood, hbehind⟩ := hstep.trap_behind hc hfits hno.safeRead
  rw [serve_call ht hcall, Syscall.handler, doSysExecve, Option.bind_eq_some_iff] at hserve
  obtain ⟨⟨v, s⟩, hexec, hr⟩ := hserve
  obtain rfl := Option.some.inj hr
  have h₁ := ht.entered hc.entered
  have hkept := taskExec_kept hexec
  have hsame := ht.sameUser hc.memOk hc.live
  have hstacks := hbehind.userStacks.trans (hkept.2.trans ht.userStacks)
  generalize entered L cause tval c.machine = s₁ at *
  obtain ⟨free, hspaces⟩ := h₁.memOk.spaces
  obtain ⟨-, maps, taken, rest, -, hbound⟩ :=
    (h₁.taskExec_imageBound c.machine.hart.pc hspaces.isFree hload).post_of_eq_some hexec
  obtain ⟨free', hf', hfree'⟩ := hbound.freed
  have hlive : s.Live c.current := by
    rw [Machine.Live, hkept.1]
    exact h₁.live
  have hmem : MemOk L fits s := hgood.1.onBehalf.memOk
  have hlast : SameUser L s c'.machine c.current :=
    SameUser.of_kernelWrite hmem hlive hbehind.changed (fun _ => mem_kernelPart_bounds)
      (hbehind.satp hlive)
  rintro ⟨w', hw', hrecord'⟩
  obtain ⟨w, hw, hrecord⟩ := h
  have hframe : pteToPa w' = pteToPa w := by rw [← hrecord', ← hrecord, hstacks]
  rw [hlast.leafEntry] at hw'
  rw [← hsame.leafEntry] at hw
  -- the page that is still recorded belonged to the old table and is free now
  have hge := hbound.kernelEnd_le hw'
  have hold := frame_mem_owned hw (hframe ▸ hge)
  have hnew : (pteToPa w').toNat ∈ sv39.pages s.mem 3 (taskPageTable L s.mem c.current) :=
    Multiset.mem_of_le owned_le_pages (frame_mem_owned hw' hge)
  obtain ⟨free'', hf'', hout⟩ := hmem.pages_notFree hlive
  obtain rfl := hf'.unique hf''
  refine hout _ hnew ?_
  rw [← Multiset.mem_coe, hfree', Multiset.mem_add, hframe]
  exact Or.inr hold

/-! ### Runs -/

/-- A run in which a task loads no image keeps the record of its stack page right. -/
theorem Inv.run_stackRecorded (hc : Inv L fits c) (hfits : fits → img.Fits)
    (hrun : Run L img (fun c e => NoRead c e ∧ ¬ LoadsImage img id c e) c c')
    (h : c.machine.Live id → StackRecorded L c.machine id) (hlive : c'.machine.Live id) :
    StackRecorded L c'.machine id := by
  induction hrun with
  | refl => exact h hlive
  | tail hrun hstep ih =>
    rename_i c₁ c₂
    obtain ⟨e, ⟨hno, hloads⟩, hstep⟩ := hstep
    have hc₁ : Inv L fits c₁ := hc.run hrun hfits fun _ _ h => h.1.safeRead
    exact hstep.stackRecorded hc₁ hfits hno hloads ih hlive

/-- From boot, or from a state in which its slot is not in use, the record of the stack page of a
task is right as long as the task loads no image; and it is wrong once the task has loaded one. -/
theorem userStack_recorded_iff [NeZero n] {c₀ : Config n}
    (h₀ : Booted L c₀ ∨ Reachable L img NoRead c₀ ∧ ¬ c₀.machine.Live id)
    (hrun : Run L img (fun c e => NoRead c e ∧ ¬ LoadsImage img id c e) c₀ c) :
    (c.machine.Live id → StackRecorded L c.machine id) ∧
    ∀ e c', Step L img c e c' → NoRead c e → c'.machine.Live id →
      (StackRecorded L c'.machine id ↔ ¬ LoadsImage img id c e) := by
  have hstart : Inv L False c₀ ∧ (c₀.machine.Live id → StackRecorded L c₀.machine id) := by
    rcases h₀ with hboot | ⟨hreach, hdead⟩
    · have hat : AtBoot L False c₀.machine := hboot.atBoot
      refine ⟨hboot.inv, fun hlive => ?_⟩
      obtain rfl := hat.eq_zero_of_live hlive
      obtain ⟨e, he, hstack, -⟩ := hat.userStack
      exact ⟨e, he, hstack⟩
    · exact ⟨hreach.inv False.elim fun _ _ hno => hno.safeRead, fun hlive => absurd hlive hdead⟩
  obtain ⟨hc₀, hrecorded₀⟩ := hstart
  have hc : Inv L False c := hc₀.run hrun False.elim fun _ _ h => h.1.safeRead
  have hrecorded := hc₀.run_stackRecorded False.elim hrun hrecorded₀
  refine ⟨hrecorded, fun e c' hstep hno hlive => ⟨fun hafter hloads => ?_, fun hloads => ?_⟩⟩
  · obtain rfl := hloads.current_eq
    exact hstep.not_stackRecorded hc False.elim hno hloads (hrecorded hc.live) hafter
  · exact hstep.stackRecorded hc False.elim hno hloads hrecorded hlive

/-- On a kernel with two task slots, the first task clones itself, and the record of the stack page
of the clone is right. -/
theorem exists_userStack_recorded : ∃ c c' : Config 2,
    Reachable twoSlots minimalImage NoRead c ∧ ¬ c.machine.Live 1 ∧
      Step twoSlots minimalImage c (.trap .trapHandler 8#64 0 0) c' ∧ c'.machine.Live 1 ∧
      StackRecorded twoSlots c'.machine 1 := by
  obtain ⟨c, c', s, hreach, -, hsched, -, -, hcall, -, hstep, -, hsched'⟩ := exists_cloned
  have hdead : ¬ c.machine.Live 1 := by
    rw [Machine.Live, hsched]
    decide
  have hlive : c'.machine.Live 1 := by
    rw [Machine.Live, hsched']
    decide
  have hno : NoRead c (.trap .trapHandler 8#64 0 0) := noRead_of_call (by simp [hcall])
  have hloads : ¬ LoadsImage minimalImage 1 c (.trap .trapHandler 8#64 0 0) := by
    simp [LoadsImage, hcall]
  have hrun : Run twoSlots minimalImage
      (fun c e => NoRead c e ∧ ¬ LoadsImage minimalImage 1 c e) c c' :=
    .single ⟨_, ⟨hno, hloads⟩, hstep⟩
  exact ⟨c, c', hreach, hdead, hstep, hlive,
    (userStack_recorded_iff (Or.inr ⟨hreach, hdead⟩) hrun).1 hlive⟩

/-! ### A run that ends with a wrong record -/

/-- With enough free pages an `execve` of a good image succeeds. -/
theorem exists_exec_step {B : ℕ} (hc : Inv L True c) (huser : c.phase = .user)
    (cause tval : Word) (ch : Byte)
    (hcall : (.trapHandler : Service n).call cause c.machine.hart = some .execve)
    (hloads : img.Loads) (hsmall : Small L B c.machine)
    (hroom : 4 + 3 * (segmentPages img).length + 133 + Fintype.card (Holder n) * B
      ≤ L.managed.card) :
    ∃ c', Step L img c (.trap .trapHandler cause tval ch) c' ∧
      c'.machine.sched = c.machine.sched := by
  have ht := entered_spec (hc.user huser).2 cause tval
  have he := ht.entered hc.entered
  obtain ⟨free, hspaces⟩ := he.memOk.spaces
  have hlength := (hsmall.entered hc ht).le_length he.memOk hspaces.isFree
  obtain ⟨⟨v, s⟩, hexec, -⟩ := (he.taskExec_imageBound c.machine.hart.pc hspaces.isFree
    hloads).exists_of_not_stuck (by omega)
  have hserve : serve L img .trapHandler ch (entered L cause tval c.machine)
      = some (.returned v s) := by
    rw [serve_call ht hcall, Syscall.handler, doSysExecve, hexec, Option.bind_some]
  obtain ⟨c', hstep, -, hsched, -⟩ := exists_returned huser hserve
  exact ⟨c', hstep, hsched.trans ((taskExec_kept hexec).1.trans ht.sched)⟩

/-- On a kernel with two task slots, the first task replaces its program right after boot. -/
theorem exists_execed : ∃ c c' : Config 2, Reachable twoSlots minimalImage NoRead c ∧
    AtBoot twoSlots True c.machine ∧
    (.trapHandler : Service 2).call 8#64 c.machine.hart = some .execve ∧
    Step twoSlots minimalImage c (.trap .trapHandler 8#64 0 0) c' ∧
    c'.machine.sched = ⟨0, Function.update (fun _ => .dead) 0 .running⟩ := by
  obtain ⟨c, hreach, huser, hat, hreg⟩ := exists_compute_twoSlots fun _ => 221#64
  have hcall : (.trapHandler : Service 2).call 8#64 c.machine.hart = some .execve :=
    call_of_reg hreg (by decide)
  have hc : Inv twoSlots True c :=
    hreach.inv (fun _ => minimalImage_slots) fun _ _ hno => hno.safeRead
  have hsmall := hat.small
  rw [twoSlots_card.2] at hsmall
  have hroom : 4 + 3 * (segmentPages minimalImage).length + 133 + Fintype.card (Holder 2) * 48
      ≤ twoSlots.managed.card := by
    rw [twoSlots_card.1]
    decide +kernel
  obtain ⟨c', hstep, hsched'⟩ :=
    exists_exec_step hc huser 8#64 0 0 hcall minimalImage_loads hsmall hroom
  exact ⟨c, c', hreach, hat, hcall, hstep, hsched'.trans hat.sched⟩

/-- The record of its stack page is wrong then. -/
theorem exists_userStack_not_recorded : ∃ c : Config 2, Reachable twoSlots minimalImage NoRead c ∧
    c.machine.Live 0 ∧ ¬ StackRecorded twoSlots c.machine 0 := by
  obtain ⟨c, c', hreach, hat, hcall, hstep, hsched'⟩ := exists_execed
  have hno : NoRead c (.trap .trapHandler 8#64 0 0) := noRead_of_call (by simp [hcall])
  have hc : Inv twoSlots False c := hreach.inv False.elim fun _ _ hno => hno.safeRead
  have hrecorded : StackRecorded twoSlots c.machine 0 := by
    obtain ⟨e, he, hstack, -⟩ := hat.userStack
    exact ⟨e, he, hstack⟩
  have hcurrent : c.current = 0 := by rw [Config.current, hat.sched]
  refine ⟨c', hreach.step hno hstep, ?_, ?_⟩
  · rw [Machine.Live, hsched']
    decide
  · exact hstep.not_stackRecorded hc False.elim hno ⟨hcurrent, hcall, minimalImage_loads⟩ hrecorded

end RiscvKernel
