import RiscvKernel.System.Progress

/-!
# What a trap does to the task that makes it

A handler that does not end the program keeps what belongs to the task: its page table, the record
of its stack page, its user memory unless it stores input, and its trapframe but for `a0`
(`serve_continued`). The task goes on with these registers, in the same step or once it is switched
to again (`Step.trap_left`).

A clone that finds a slot and enough free pages succeeds (`exists_clone_step`), and a task that
yields is left in the next one that is ready to run (`exists_yield_step`).
-/

namespace RiscvKernel

open ByteMemory RadixTable Riscv

variable {n : ℕ}

/-! ### Results of handlers -/

/-- The system call that is served. -/
def Service.call (service : Service n) (cause : Word) (h : Hart) : Option Syscall :=
  match service with
  | .trapHandler => syscallOf cause (h.reg .a7)
  | _ => none

/-- Where a program goes on after a trap that does not end it: at the same instruction after an
interrupt, and behind it otherwise. -/
def Service.resumePc (service : Service n) (cause pc : Word) : Word :=
  match service with
  | .trapHandler => if isInterrupt cause then pc else pc + 4#64
  | _ => pc + 4#64

/-- The program ends: it exits, or it is replaced by the embedded image. -/
def Service.Ends (service : Service n) (img : AppImage) (cause : Word) (h : Hart) : Prop :=
  service.call cause h = some .exit ∨ (service.call cause h = some .execve ∧ img.Loads)

/-- The machine when a handler returns or calls `switch_to`. -/
def Handled.machine : Handled n → Machine n
  | .returned _ s => s
  | .switching _ _ s => s

/-- What a handler returns, at once or after `switch_to`. -/
def Handled.value : Handled n → Option Word
  | .returned v _ => some v
  | .switching _ after _ => after

/-- From `s` to `s'` task `i` has kept its page table, the record of its stack page, and its
trapframe but for `a0`. -/
structure Kept (L : Layout n) (i : Fin n) (s s' : Machine n) : Prop where
  satp : contextLoad s'.mem (L.context i) .satp = contextLoad s.mem (L.context i) .satp
  userStack : s'.taskUserStacks i = s.taskUserStacks i
  frame : ∀ f, f ≠ .a0 →
    tfLoad s'.mem (L.taskTrapFrame i) f = tfLoad s.mem (L.taskTrapFrame i) f

/-- A handler called in `s` that serves `call`, stores input at `W` and lets task `i` go on at
`pc`. -/
structure Continued (L : Layout n) (i : Fin n) (call : Option Syscall) (W : Set ℕ) (pc : Word)
    (s : Machine n) (r : Handled n) : Prop where
  value : r.value = some pc
  live : r.machine.Live i
  kept : Kept L i s r.machine
  a0 : call ≠ some .read → call ≠ some .clone →
    tfLoad r.machine.mem (L.taskTrapFrame i) .a0 = tfLoad s.mem (L.taskTrapFrame i) .a0
  user : W = ∅ → SameUser L s r.machine i

variable {L : Layout n} {img : AppImage} {fits : Prop} {W : Set ℕ} {i : Fin n}
  {s s' s₁ : Machine n} {r : Handled n} {cause pc tval arg0 arg1 epc : Word} {ch : Byte}
  {service : Service n} {call : Option Syscall} {call₀ : Syscall} {after : Option Word}
  {c c' : Config n} {e : Event n}

theorem noRead_compute {reg : Reg → Word} : NoRead c (.compute reg pc) := rfl

theorem noRead_resume : NoRead c .resume := rfl

/-- Only the read system call stores input. -/
theorem noRead_of_call (h : service.call cause c.machine.hart ≠ some .read) :
    NoRead c (.trap service cause tval ch) := by
  rw [NoRead, Set.eq_empty_iff_forall_notMem]
  intro a ha
  cases service with
  | trapHandler => exact h ha.1
  | sleep => exact ha
  | wakeup id => exact ha

/-- Right after boot the first task of this kernel may have anything in its registers. -/
theorem exists_compute_twoSlots (reg : Reg → Word) :
    ∃ c : Config 2, Reachable twoSlots minimalImage NoRead c ∧ c.phase = .user ∧
      AtBoot twoSlots True c.machine ∧ c.machine.hart.reg = reg := by
  obtain ⟨c₀, hboot, huser₀, hat⟩ := exists_booted_twoSlots True
  obtain ⟨c, hcompute, huser, hmachine⟩ :=
    exists_compute (L := twoSlots) minimalImage huser₀ reg
  refine ⟨c, ⟨c₀, hboot, .single ⟨_, noRead_compute, hcompute⟩⟩, huser, ?_, by rw [hmachine]⟩
  -- only registers have changed since boot
  rw [hmachine]
  exact { hat with memOk := ⟨hat.memOk.spaces, hat.memOk.satp⟩ }

/-- With the number of a system call in its registers a program makes this call. -/
theorem call_of_reg {h : Hart} {w : Word} (hreg : h.reg = fun _ => w)
    (hw : syscallOf 8#64 w = some call₀) : (.trapHandler : Service n).call 8#64 h = some call₀ := by
  rw [Service.call, hreg]
  exact hw

/-- A user program gets ready for any system call. -/
theorem exists_call (L : Layout n) (img : AppImage) (hphase : c.phase = .user) (w : Word)
    (hw : syscallOf 8#64 w = some call₀) :
    ∃ c', Step L img c (.compute (fun _ => w) c.machine.hart.pc) c' ∧ c'.phase = .user ∧
      c'.machine = { c.machine with hart := { c.machine.hart with reg := fun _ => w } } ∧
      (.trapHandler : Service n).call 8#64 c'.machine.hart = some call₀ := by
  obtain ⟨c', hstep, hphase', hmachine⟩ := exists_compute (L := L) img hphase fun _ => w
  exact ⟨c', hstep, hphase', hmachine, call_of_reg (by rw [hmachine]) hw⟩

/-- A system call is made by no interrupt, and the program goes on behind it. -/
theorem isInterrupt_of_call {sysNum : Word} {call : Syscall}
    (h : syscallOf cause sysNum = some call) : isInterrupt cause = false := by
  rw [syscallOf] at h
  split_ifs at h with hint
  exact Bool.eq_false_iff.mpr hint

theorem resumePc_of_call {h : Hart} {call : Syscall} (hcall : service.call cause h = some call) :
    service.resumePc cause pc = pc + 4#64 := by
  cases service with
  | trapHandler =>
    rw [Service.resumePc, isInterrupt_of_call hcall]
    simp
  | sleep => rfl
  | wakeup id => rfl

/-! ### Handlers -/

theorem SameUser.refl (L : Layout n) (s : Machine n) (i : Fin n) : SameUser L s s i :=
  ⟨rfl, fun _ => rfl, fun _ => rfl, fun _ _ _ _ _ => rfl⟩

/-- Nothing is known of memory other than its bytes. -/
theorem SameUser.of_mem (hm : s'.mem = s.mem) : SameUser L s s' i := by
  refine ⟨?_, fun leaf => ?_, fun va => ?_, fun va e _ b _ => ?_⟩ <;> rw [hm]

/-- A handler that changes no memory. -/
theorem Continued.of_mem (hv : r.value = some pc) (hlive : r.machine.Live i)
    (hm : r.machine.mem = s.mem) (hstack : r.machine.taskUserStacks = s.taskUserStacks) :
    Continued L i call W pc s r where
  value := hv
  live := hlive
  kept := ⟨by rw [hm], by rw [hstack], fun f _ => by rw [hm]⟩
  a0 _ _ := by rw [hm]
  user _ := SameUser.of_mem hm

/-- `task_yield` at the end of a handler that changes no memory. -/
theorem continued_taskYield (hr : taskYield (some pc) s' = some r) (hlive : s'.Live i)
    (hm : s'.mem = s.mem) (hstack : s'.taskUserStacks = s.taskUserStacks) :
    Continued L i call W pc s r := by
  rcases taskYield_cases hr with ⟨v, hv, rfl, -⟩ | ⟨next, -, hrun, rfl⟩
  · exact Continued.of_mem hv.symm hlive hm hstack
  · refine Continued.of_mem rfl (fun hdead => hlive ?_) hm hstack
    exact (schedPrepareSwitch_eq_dead hrun i).mp hdead

/-- Storing a result in the trapframe. -/
theorem Kept.withA0 (h : Kept L i s s') (v : Word) :
    Kept L i s (s'.withMem (tfStore s'.mem (L.taskTrapFrame i) .a0 v)) where
  satp := by
    rw [Machine.withMem_mem, contextLoad_congr fun a ha =>
      changedIn_frame L i s'.mem .a0 v a (Layout.contextRange_not_stack ha)]
    exact h.satp
  userStack := h.userStack
  frame f hf := by
    rw [Machine.withMem_mem, tfLoad_tfStore, if_neg hf]
    exact h.frame f hf

theorem SameUser.withA0 (h : SameUser L s s' i) (hmem : MemOk L fits s') (hlive : s'.Live i)
    (v : Word) :
    SameUser L s (s'.withMem (tfStore s'.mem (L.taskTrapFrame i) .a0 v)) i := by
  refine h.trans (SameUser.of_kernelWrite hmem hlive (changedIn_frame L i s'.mem .a0 v)
    (fun a => Layout.mem_stackRange_bounds) ?_)
  exact contextLoad_congr (fun a ha =>
    changedIn_frame L i s'.mem .a0 v a (Layout.contextRange_not_stack ha)) .satp

/-- A task that is spared keeps everything. -/
theorem Kept.of_spared (h : Spared L W s s' i) (hW : ∀ a ∈ W, a ∈ outsideImage L) :
    Kept L i s s' where
  satp := contextLoad_congr (fun a ha => h.kernelPart_eq hW a (Or.inl ha)) .satp
  userStack := h.userStack
  frame f _ := tfLoad_congr (fun a ha => h.kernelPart_eq hW a (Or.inr ha)) f

/-- A fork leaves the task that forks as it was. -/
theorem Forked.kept_parent {d : Fin n} {tf : ℕ} (hf : Forked L fits tf epc d s s')
    (h : Entered L fits i s) : Kept L i s s' ∧ SameUser L s s' i := by
  have hne : i ≠ d := by
    rintro rfl
    exact hf.dead h.live
  have hspared := hf.onBehalf.spared i hne h.live
  exact ⟨Kept.of_spared hspared fun a ha => absurd ha (Set.notMem_empty a),
    hspared.sameUser h.memOk h.live hf.onBehalf.text⟩

/-- What the clone system call does to the task that makes it. -/
theorem Entered.doSysClone_continued (h : Entered L fits i s) (arg0 arg1 : Word)
    (hr : doSysClone L arg0 arg1 epc (L.taskTrapFrame i) s = some r) :
    Continued L i (some .clone) W (epc + 4#64) s r := by
  rw [doSysClone, Option.bind_eq_some_iff] at hr
  obtain ⟨⟨child, s'⟩, hfork, hr⟩ := hr
  obtain rfl := Option.some.inj hr
  -- before the result is stored
  obtain ⟨hkept, huser, hmem, hlive⟩ :
      Kept L i s s' ∧ SameUser L s s' i ∧ MemOk L fits s' ∧ s'.Live i := by
    rcases (taskFork_spec h epc).post_of_eq_some hfork with ⟨heq, -⟩ | ⟨d, -, -, hf⟩
    · obtain ⟨-, rfl⟩ := Prod.mk.inj heq
      exact ⟨⟨rfl, rfl, fun _ _ => rfl⟩, SameUser.refl L _ i, h.memOk, h.live⟩
    · obtain ⟨hkept, huser⟩ := hf.kept_parent h
      have hne : i ≠ d := by
        rintro rfl
        exact hf.dead h.live
      exact ⟨hkept, huser, hf.onBehalf.memOk, (hf.onBehalf.spared i hne h.live).live⟩
  exact ⟨rfl, hlive, hkept.withA0 _, fun _ hclone => absurd rfl hclone,
    fun _ => huser.withA0 hmem hlive _⟩

/-- What the read system call does to the task that makes it. -/
theorem Entered.doSysRead_continued (h : Entered L fits i s)
    (hW : ∀ a ∈ readTarget arg0 arg1 (tfLoad s.mem (L.taskTrapFrame i) .a2),
      a ∈ W ∧ a ∉ kernelBytes L s)
    (hr : doSysRead ch arg0 arg1 epc (L.taskTrapFrame i) s = some r) :
    Continued L i (some .read) W (epc + 4#64) s r := by
  obtain ⟨m, v, heq, hcases⟩ := doSysRead_spec ch arg0 arg1 epc (L.taskTrapFrame i) s
  obtain rfl := Option.some.inj (heq.symm.trans hr)
  rcases hcases with ⟨-, rfl, -⟩ | ⟨htarget, rfl, -⟩
  · have hkept : Kept L i s s := ⟨rfl, rfl, fun _ _ => rfl⟩
    exact ⟨rfl, h.live, hkept.withA0 v, fun hread => absurd rfl hread,
      fun _ => (SameUser.refl L s i).withA0 h.memOk h.live v⟩
  · obtain ⟨hmemW, hout⟩ := hW _ htarget
    have hkept : Kept L i s (s.withMem (storeByte s.mem arg1.toNat (received ch))) := by
      have hkernel : ∀ a ∈ kernelPart L i,
          storeByte s.mem arg1.toNat (received ch) a = s.mem a :=
        storeByte_kernelPart hout (received ch)
      exact ⟨contextLoad_congr (fun a ha => hkernel a (Or.inl ha)) .satp, rfl,
        fun f _ => tfLoad_congr (fun a ha => hkernel a (Or.inr ha)) f⟩
    refine ⟨rfl, h.live, hkept.withA0 v, fun hread => absurd rfl hread, fun hempty => ?_⟩
    rw [hempty] at hmemW
    exact absurd hmemW (Set.notMem_empty _)

/-- A handler that does not end the program lets it go on with what it had. -/
theorem serve_continued (ht : TrapTaken L i cause s s₁) (he : Entered L fits i s)
    (hfits : fits → img.Fits) (hW : ∀ a ∈ service.stores cause s.hart, a ∉ kernelBytes L s)
    (hnot : ¬ service.Ends img cause s.hart) (hr : serve L img service ch s₁ = some r) :
    Continued L i (service.call cause s.hart) (service.stores cause s.hart)
      (service.resumePc cause s.hart.pc) s₁ r := by
  have h₁ := ht.entered he
  cases service with
  | trapHandler =>
    rw [serve, ht.cause_arg, ht.arg0_arg, ht.arg1_arg, ht.sysNum_arg, ht.tf_arg, ht.epc_arg] at hr
    rcases trapHandler_cases hr with ⟨hint, -, hyield⟩ | ⟨hint, -, rfl⟩ | ⟨call, hcall, hr⟩ |
      ⟨hint, -, rfl⟩
    · rw [Service.resumePc, if_pos hint]
      exact continued_taskYield hyield h₁.live rfl rfl
    · rw [Service.resumePc, if_pos hint]
      exact Continued.of_mem rfl h₁.live rfl rfl
    · rw [Service.resumePc, isInterrupt_of_call hcall, if_neg (by simp), Service.call, hcall]
      cases call with
      | read =>
        -- the count is that of the frame, so the bytes stored are those the call names
        refine h₁.doSysRead_continued (fun a ha => ?_) hr
        have hcount : tfLoad s₁.mem (L.taskTrapFrame i) .a2 = s.hart.reg .a2 := ht.frame .a2
        rw [hcount] at ha
        have hstores : a ∈ Service.trapHandler.stores (n := n) cause s.hart := ⟨hcall, ha⟩
        exact ⟨hstores, fun hmem => hW a hstores (ht.kernelBytes_subset he.memOk hmem)⟩
      | write =>
        obtain rfl := Option.some.inj hr
        exact Continued.of_mem rfl h₁.live rfl rfl
      | schedYield => exact continued_taskYield hr h₁.live rfl rfl
      | exit => exact absurd (Or.inl hcall) hnot
      | clone => exact h₁.doSysClone_continued (s.hart.reg .a0) (s.hart.reg .a1) hr
      | execve =>
        rw [Syscall.handler, doSysExecve, Option.bind_eq_some_iff] at hr
        obtain ⟨⟨v, s'⟩, hexec, hr⟩ := hr
        obtain rfl := Option.some.inj hr
        -- a failed `execve` changes nothing; one that loads does not go on in the old image
        rcases (taskExec_spec (W := ∅) h₁ hfits _).post_of_eq_some hexec with
          ⟨-, heq⟩ | ⟨hloads, -⟩
        · obtain ⟨rfl, rfl⟩ := Prod.mk.inj heq
          exact Continued.of_mem rfl h₁.live rfl rfl
        · exact absurd (Or.inr ⟨hcall, hloads⟩) hnot
    · rw [Service.resumePc, hint, if_neg (by simp)]
      exact Continued.of_mem rfl h₁.live rfl rfl
  | sleep =>
    rw [serve, ht.epc_arg, taskSleep] at hr
    refine continued_taskYield hr ?_ rfl rfl
    -- the task is marked as sleeping, which is still in use
    rw [h₁.current, Machine.Live, Machine.setState_taskStates, Function.update_self]
    simp
  | wakeup id =>
    rw [serve, ht.epc_arg] at hr
    split_ifs at hr with hid
    obtain rfl := Option.some.inj hr
    obtain ⟨-, hok, hcurrent⟩ : Handled.Good L fits ∅ i s₁ (.returned (s.hart.pc + 4#64) _) :=
      h₁.taskWakeup_good hid _
    exact Continued.of_mem rfl (hok.live hcurrent) rfl rfl

/-! ### Steps -/

/-- The trap of task `i` whose handler came to `r` has been left in `c'`: task `i` is back in user
mode with the registers of its trapframe, or waits behind `switch_to`. -/
structure Handled.Left (L : Layout n) (i : Fin n) (pc : Word) (r : Handled n) (c' : Config n) :
    Prop where
  changed : ChangedIn (kernelPart L i) r.machine.mem c'.machine.mem
  frame : ∀ f, f ≠ .epc → tfLoad c'.machine.mem (L.taskTrapFrame i) f
    = tfLoad r.machine.mem (L.taskTrapFrame i) f
  satp : contextLoad c'.machine.mem (L.context i) .satp
    = contextLoad r.machine.mem (L.context i) .satp
  freeList : c'.machine.phys.freeList = r.machine.phys.freeList
  root : c'.machine.rootPageTable = r.machine.rootPageTable
  sched : c'.machine.sched = r.machine.sched
  userStacks : c'.machine.taskUserStacks = r.machine.taskUserStacks
  goes : (c'.phase = .user ∧ c'.current = i ∧ Restored L r.machine.mem i pc c'.machine.hart ∧
      ChangedIn (L.stackRange i) r.machine.mem c'.machine.mem) ∨
    (c'.phase = .resuming ∧ c'.current ≠ i ∧
      contextLoad c'.machine.mem (L.context i) .ra = L.switchReturn ∧
      ∃ k, c'.suspended i = some k ∧ k.after = some pc)

/-- The trap of task `i` whose handler came to `r` has been left in `c'`: behind the handler only
kernel data of task `i` has changed. -/
structure Handled.Behind (L : Layout n) (i : Fin n) (r : Handled n) (c' : Config n) : Prop where
  changed : ChangedIn (kernelPart L i) r.machine.mem c'.machine.mem
  satp : r.machine.Live i → contextLoad c'.machine.mem (L.context i) .satp
    = contextLoad r.machine.mem (L.context i) .satp
  freeList : c'.machine.phys.freeList = r.machine.phys.freeList
  root : c'.machine.rootPageTable = r.machine.rootPageTable
  sched : c'.machine.sched = r.machine.sched
  userStacks : c'.machine.taskUserStacks = r.machine.taskUserStacks

/-- What the assembly code behind a handler does. -/
theorem Step.trap_behind (hstep : Step L img c (.trap service cause tval ch) c') (hc : Inv L fits c)
    (hfits : fits → img.Fits) (hsafe : SafeRead L c (.trap service cause tval ch)) :
    ∃ r, serve L img service ch (entered L cause tval c.machine) = some r ∧
      r.Good L fits (service.stores cause c.machine.hart) c.current
        (entered L cause tval c.machine) ∧ Handled.Behind L c.current r c' := by
  cases hstep with
  | @returned hphase service cause tval ch v s h m hserve hreturn hstack =>
    have ht := entered_spec (hc.user hphase).2 cause tval
    have hgood := serve_good ht hc.entered hfits (fun a ha => ⟨ha, hsafe a ha⟩) hserve
    have hsp : (h.reg .sp).toNat = L.taskTrapFrame c.current := by
      rw [hreturn.sp, hgood.1.reg, ht.sp]
    -- the exit writes the frame, on top of the part of the stack that was used
    obtain ⟨hm, -⟩ := leave_spec (m := m) hsp (frame_lt L _)
    rw [hgood.1.reg, ht.sp] at hstack
    have hstack' : ChangedIn (L.stackRange c.current) s.mem (leave h m).2 := by
      rw [hm]
      exact (hstack.mono fun a ha => callStack_subset ha).trans (changedIn_frame L _ _ _ _)
    exact ⟨_, hserve, hgood, hstack'.mono fun a ha => Or.inr ha,
      fun _ => contextLoad_congr (fun a ha => hstack' a (Layout.contextRange_not_stack ha)) .satp,
      rfl, rfl, rfl, rfl⟩
  | @switched hphase service cause tval ch prev after s h m hserve hcall hstack =>
    have ht := entered_spec (hc.user hphase).2 cause tval
    have hgood := serve_good ht hc.entered hfits (fun a ha => ⟨ha, hsafe a ha⟩) hserve
    obtain ⟨hserviced, -, rfl, -⟩ := id hgood
    -- the C code hands `switch_to` the two contexts it switches between
    have hprev := context_toNat L c.current
    have hnext := context_toNat L s.sched.currentTask
    have hswitched := switchTo_spec (m := m) (hcall.a0 ▸ hprev.1) (hcall.a1 ▸ hnext.1) hprev.2
      hnext.2
    generalize run switchTo (h, m) = r at hswitched
    rw [hserviced.reg, ht.sp] at hstack
    refine ⟨_, hserve, hgood, ?_, fun hlive => ?_, rfl, rfl, rfl, rfl⟩
    · exact (hstack.mono fun a ha => Or.inr (callStack_subset ha)).trans
        (hswitched.changed.mono fun a ha => Or.inl ha)
    · exact (hswitched.saved_satp.trans (congrFun hcall.csr _)).trans (hserviced.satp hlive)

/-- What a trap that does not end the program does to the task that makes it, the assembly code
behind the handler included. -/
theorem Step.trap_left (hstep : Step L img c (.trap service cause tval ch) c') (hc : Inv L fits c)
    (hfits : fits → img.Fits) (hsafe : SafeRead L c (.trap service cause tval ch))
    (hnot : ¬ service.Ends img cause c.machine.hart) :
    ∃ r, serve L img service ch (entered L cause tval c.machine) = some r ∧
      Continued L c.current (service.call cause c.machine.hart)
        (service.stores cause c.machine.hart) (service.resumePc cause c.machine.hart.pc)
        (entered L cause tval c.machine) r ∧
      Handled.Left L c.current (service.resumePc cause c.machine.hart.pc) r c' := by
  have huser : c.phase = .user := by cases hstep <;> assumption
  have ht := entered_spec (hc.user huser).2 cause tval
  obtain ⟨r, hserve, hgood, hbehind⟩ := hstep.trap_behind hc hfits hsafe
  have hcont := serve_continued ht hc.entered hfits hsafe hnot hserve
  -- what is left to show: the trapframe, and where the task goes on
  suffices hrest : (∀ f, f ≠ .epc → tfLoad c'.machine.mem (L.taskTrapFrame c.current) f
      = tfLoad r.machine.mem (L.taskTrapFrame c.current) f) ∧ _ from
    ⟨r, hserve, hcont, hbehind.changed, hrest.1, hbehind.satp hcont.live, hbehind.freeList,
      hbehind.root, hbehind.sched, hbehind.userStacks, hrest.2⟩
  cases hstep with
  | @returned hphase service cause tval ch v s h m hserve' hreturn hstack =>
    obtain rfl := Option.some.inj (hserve'.symm.trans hserve)
    obtain ⟨hserviced, -, hcurrent⟩ := hgood
    have hsp : (h.reg .sp).toNat = L.taskTrapFrame c.current := by
      rw [hreturn.sp, hserviced.reg, ht.sp]
    obtain ⟨hm, -⟩ := leave_spec (m := m) hsp (frame_lt L _)
    rw [hserviced.reg, ht.sp] at hstack
    have hstack' : ChangedIn (L.stackRange c.current) s.mem (leave h m).2 := by
      rw [hm]
      exact (hstack.mono fun a ha => callStack_subset ha).trans (changedIn_frame L _ _ _ _)
    -- the call has used the kernel stack below the trapframe only
    have hframe : ∀ f, tfLoad m (L.taskTrapFrame c.current) f
        = tfLoad s.mem (L.taskTrapFrame c.current) f := by
      intro f
      refine loadWord_congr fun b hb => hstack _ fun hmem => ?_
      rw [callStack, Set.mem_Ico] at hmem
      omega
    refine ⟨fun f hf => ?_, Or.inl ⟨hphase, hcurrent, ?_, hstack'⟩⟩
    · change tfLoad (leave h m).2 _ f = _
      rw [hm, tfLoad_tfStore, if_neg hf]
      exact hframe f
    · obtain ⟨hpriv, hpc, hreg⟩ := restored_of_leave (m := m) hsp
      refine ⟨hpriv, ?_, fun x => (hreg x).trans (hframe _)⟩
      have hvalue : some v = some (service.resumePc cause c.machine.hart.pc) := hcont.value
      exact (hpc.trans hreturn.a0).trans (Option.some.inj hvalue)
  | @switched hphase service cause tval ch prev after s h m hserve' hcall hstack =>
    obtain rfl := Option.some.inj (hserve'.symm.trans hserve)
    obtain ⟨hserviced, -, rfl, hne, -⟩ := hgood
    have hprev := context_toNat L c.current
    have hnext := context_toNat L s.sched.currentTask
    have hswitched := switchTo_spec (m := m) (hcall.a0 ▸ hprev.1) (hcall.a1 ▸ hnext.1) hprev.2
      hnext.2
    generalize run switchTo (h, m) = r at hswitched
    refine ⟨fun f _ => ?_, Or.inr ⟨rfl, hne, ?_, _, Function.update_self _ _ _, hcont.value⟩⟩
    · -- neither the call nor `switch_to` writes to the trapframe
      rw [hserviced.reg, ht.sp] at hstack
      refine loadWord_congr fun b hb => (hswitched.changed _ fun hmem => ?_).trans
        (hstack _ fun hmem => ?_)
      · have hf := f.offset_lt
        refine Layout.contextRange_not_stack hmem (?_ : _ ∈ L.stackRange c.current)
        exact mem_stackRange_of_frame (by omega) (by omega)
      · rw [callStack, Set.mem_Ico] at hmem
        omega
    · exact (hswitched.saved (.ra, .ra) (by decide)).trans hcall.ra

theorem Handled.Good.memOk (h : r.Good L fits W i s) : MemOk L fits r.machine := by
  cases r with
  | returned v s' => exact h.1.onBehalf.memOk
  | switching prev after s' => exact h.1.onBehalf.memOk

theorem TrapTaken.sameUser (ht : TrapTaken L i cause s s') (hmem : MemOk L fits s)
    (hlive : s.Live i) : SameUser L s s' i :=
  SameUser.of_kernelWrite hmem hlive ht.changed (fun _ => Layout.mem_stackRange_bounds)
    (contextLoad_congr (ht.context_eq i) .satp)

/-- A trap that stores no input and does not end the program keeps user memory and the record of
the stack page. -/
theorem Step.trap_sameUser (hstep : Step L img c (.trap service cause tval ch) c')
    (hc : Inv L fits c) (hfits : fits → img.Fits) (hno : NoRead c (.trap service cause tval ch))
    (hnot : ¬ service.Ends img cause c.machine.hart) :
    SameUser L c.machine c'.machine c.current ∧
      c'.machine.taskUserStacks c.current = c.machine.taskUserStacks c.current := by
  have huser : c.phase = .user := by cases hstep <;> assumption
  have ht := entered_spec (hc.user huser).2 cause tval
  obtain ⟨r, hserve, hcont, hleft⟩ := hstep.trap_left hc hfits hno.safeRead hnot
  have hmem := (serve_good ht hc.entered hfits
    (fun a ha => ⟨ha, hno.safeRead a ha⟩) hserve).memOk
  have hlast : SameUser L r.machine c'.machine c.current :=
    SameUser.of_kernelWrite hmem hcont.live hleft.changed (fun _ => mem_kernelPart_bounds)
      hleft.satp
  refine ⟨((ht.sameUser hc.memOk hc.live).trans (hcont.user hno)).trans hlast, ?_⟩
  rw [hleft.userStacks, hcont.kept.userStack, ht.userStacks]

/-! ### Tasks that are made and that run in turn -/

/-- A trap leaves the page tables small. -/
theorem Small.entered {B : ℕ} (h : Small L B c.machine) (hc : Inv L fits c)
    (ht : TrapTaken L c.current cause c.machine s) : Small L B s := by
  refine h.of_onBehalf (ht.onBehalf hc.memOk ∅) fun id hid hcases => ?_
  have hlive := (ht.live_iff id).mp hid
  obtain rfl := hcases.resolve_right (not_not.mpr hlive)
  rw [(ht.sameUser hc.memOk hlive).pages]
  exact h.task _ hlive

/-- With enough free pages a clone that finds a slot succeeds. -/
theorem exists_clone_step {B : ℕ} {d : Fin n} (hc : Inv L True c) (huser : c.phase = .user)
    (img : AppImage) (cause tval : Word) (ch : Byte)
    (hcall : (.trapHandler : Service n).call cause c.machine.hart = some .clone)
    (hslot : allocTaskSlot c.machine.sched.taskStates = some d) (hsmall : Small L B c.machine)
    (hroom : 133 + (Fintype.card (Holder n) + 1) * B ≤ L.managed.card) :
    ∃ s c₁, taskFork L (L.taskTrapFrame c.current) c.machine.hart.pc
        (entered L cause tval c.machine) = some (some d, s) ∧
      Step L img c (.trap .trapHandler cause tval ch) c₁ ∧ c₁.phase = .user ∧
      c₁.machine.sched = { c.machine.sched with
        taskStates := Function.update c.machine.sched.taskStates d .ready } := by
  have ht := entered_spec (hc.user huser).2 cause tval
  have he := ht.entered hc.entered
  have hB := hsmall.entered hc ht
  obtain ⟨⟨child, s⟩, hfork, hpost⟩ := (taskFork_spec he c.machine.hart.pc).exists_of_not_stuck
    fun hstuck => by
      -- the copy needs no more pages than the parent has
      obtain ⟨free, hspaces⟩ := he.memOk.spaces
      have hlength := hB.le_length he.memOk hspaces.isFree
      have hlt := hstuck free hspaces.isFree
      have hown := hB.task c.current he.live
      rw [add_mul, one_mul] at hroom
      omega
  rcases hpost with ⟨-, hall⟩ | ⟨d', hd, hslot', hf⟩
  · exact absurd (allocTaskSlot_eq_some hslot) ((ht.live_iff d).mp (hall d))
  rw [ht.sched] at hslot'
  obtain rfl : d = d' := Option.some.inj (hslot.symm.trans hslot')
  obtain rfl : child = some d := hd
  have hserve : serve L img .trapHandler ch (entered L cause tval c.machine) = some
      (.returned (c.machine.hart.pc + 4#64) (s.withMem
        (tfStore s.mem (L.taskTrapFrame c.current) .a0 (forkResult (some d))))) := by
    rw [serve_call ht hcall, Syscall.handler, doSysClone, hfork, Option.bind_some]
  obtain ⟨c₁, hstep, huser₁, hsched, -⟩ := exists_returned huser hserve
  refine ⟨s, c₁, hfork, hstep, huser₁, ?_⟩
  rw [hsched, ← ht.sched]
  exact hf.sched

/-- A user program calls `yield`, and another task is picked. -/
theorem exists_yield_step {next : Fin n} (img : AppImage) (hc : Inv L fits c)
    (hfits : fits → img.Fits) (huser : c.phase = .user)
    (hpick : schedPickNext c.machine.sched.taskStates c.current = some next)
    (hne : next ≠ c.current) :
    ∃ c₁ c₂, Step L img c (.compute (fun _ => 124#64) c.machine.hart.pc) c₁ ∧ c₁.phase = .user ∧
      c₁.machine.sched = c.machine.sched ∧
      (.trapHandler : Service n).call 8#64 c₁.machine.hart = some .schedYield ∧
      Step L img c₁ (.trap .trapHandler 8#64 0 0) c₂ ∧ c₂.phase = .resuming ∧
      c₂.machine.sched = schedPrepareSwitch next c.machine.sched := by
  obtain ⟨c₁, hcompute, huser₁, hmachine, hcall⟩ :=
    exists_call L img huser 124#64 (by decide : _ = some .schedYield)
  have hc₁ := (hcompute.advanced hc hfits noRead_compute.safeRead).inv
  have hsched₁ : c₁.machine.sched = c.machine.sched := by rw [hmachine]
  have ht := entered_spec (hc₁.user huser₁).2 8#64 0
  have hsched : (entered L 8#64 0 c₁.machine).sched = c.machine.sched := ht.sched.trans hsched₁
  rw [Config.current, ← hsched] at hpick hne
  have hserve : serve L img .trapHandler 0 (entered L 8#64 0 c₁.machine)
      = taskYield (some (c₁.machine.hart.pc + 4#64)) (entered L 8#64 0 c₁.machine) :=
    serve_call ht hcall
  obtain ⟨c₂, hyield, hphase, hsched₂⟩ :=
    exists_switched huser₁ (hserve.trans (taskYield_of_pick hpick hne))
  exact ⟨c₁, c₂, hcompute, huser₁, hsched₁, hcall, hyield, hphase,
    hsched₂.trans (congrArg (schedPrepareSwitch next) hsched)⟩

/-- On a kernel with two task slots, with `220` in all registers, the first task clones itself into
slot 1. -/
theorem exists_cloned : ∃ (c c₁ : Config 2) (s : Machine 2),
    Reachable twoSlots minimalImage NoRead c ∧ c.phase = .user ∧
      c.machine.sched = ⟨0, Function.update (fun _ => .dead) 0 .running⟩ ∧
      AtBoot twoSlots True c.machine ∧ c.machine.hart.reg = (fun _ => 220#64) ∧
      (.trapHandler : Service 2).call 8#64 c.machine.hart = some .clone ∧
      taskFork twoSlots (twoSlots.taskTrapFrame c.current) c.machine.hart.pc
        (entered twoSlots 8#64 0 c.machine) = some (some 1, s) ∧
      Step twoSlots minimalImage c (.trap .trapHandler 8#64 0 0) c₁ ∧ c₁.phase = .user ∧
      c₁.machine.sched
        = ⟨0, Function.update (Function.update (fun _ => .dead) 0 .running) 1 .ready⟩ := by
  obtain ⟨c, hreach, huser, hat, hreg⟩ := exists_compute_twoSlots fun _ => 220#64
  have hcall : (.trapHandler : Service 2).call 8#64 c.machine.hart = some .clone :=
    call_of_reg hreg (by decide)
  have hc : Inv twoSlots True c :=
    hreach.inv (fun _ => minimalImage_slots) fun _ _ hno => hno.safeRead
  have hsmall := hat.small
  rw [twoSlots_card.2] at hsmall
  have hslot : allocTaskSlot c.machine.sched.taskStates = some 1 := by
    rw [hat.sched]
    decide
  have hroom : 133 + (Fintype.card (Holder 2) + 1) * 48 ≤ twoSlots.managed.card := by
    rw [twoSlots_card.1]
    decide
  obtain ⟨s, c₁, hfork, hstep, huser₁, hsched⟩ :=
    exists_clone_step hc huser minimalImage 8#64 0 0 hcall hslot hsmall hroom
  rw [hat.sched] at hsched
  exact ⟨c, c₁, s, hreach, huser, hat.sched, hat, hreg, hcall, hfork, hstep, huser₁, hsched⟩

/-- After this clone both slots are in use, and the first task still has its stack page. -/
theorem exists_twoLive : ∃ (c : Config 2) (e : Word),
    Reachable twoSlots minimalImage NoRead c ∧ c.phase = .user ∧
      c.machine.sched
        = ⟨0, Function.update (Function.update (fun _ => .dead) 0 .running) 1 .ready⟩ ∧
      leafEntry c.machine.mem c.machine.pgd userStackPageVa = some e ∧ UserWritable e := by
  obtain ⟨c, c₁, s, hreach, huser, hsched, hat, -, hcall, -, hstep, huser₁, hsched₁⟩ :=
    exists_cloned
  have hno : NoRead c (.trap .trapHandler 8#64 0 0) := noRead_of_call (by simp [hcall])
  have hc : Inv twoSlots False c := hreach.inv False.elim fun _ _ hno => hno.safeRead
  have hreach₁ := hreach.step hno hstep
  have hc₁ : Inv twoSlots False c₁ := hreach₁.inv False.elim fun _ _ hno => hno.safeRead
  obtain ⟨e, he, -, hwritable⟩ := hat.userStack
  have hkept := (hstep.trap_sameUser hc False.elim hno (by simp [Service.Ends, hcall])).1
  have hcurrent : c.current = 0 := congrArg Sched.currentTask hsched
  have hcurrent₁ : c₁.current = 0 := congrArg Sched.currentTask hsched₁
  rw [hcurrent] at hkept
  refine ⟨c₁, e, hreach₁, huser₁, hsched₁, ?_, hwritable⟩
  rw [hc₁.pgd_eq, hcurrent₁, hkept.leafEntry]
  exact he

end RiscvKernel
