import RiscvKernel.System.Exec
import RiscvKernel.System.Fork
import RiscvKernel.System.Step

/-!
# From the trap to the end of the handler

A trap from user mode saves all registers in the trapframe of the current task (`Trapped`), and
whatever the handler then does is good (`serve_good`).

* `syscallOf`: the system call that a trap makes.
* `readTarget`: where a read system call stores a byte.
* `trapHandler_cases`: everything `trap_handler` can do.
* `entered_spec`, `serve_good`.
-/

namespace RiscvKernel

open ByteMemory RadixTable Riscv

variable {n : ℕ}

/-- The system call that a trap makes, if it makes one of the table. -/
def syscallOf (cause sysNum : Word) : Option Syscall :=
  if isInterrupt cause then none
  else if exceptionCode cause = 8 ∨ exceptionCode cause = 11 then
    if sysNum.toNat < maxSyscallNum then sysCallTable sysNum.toNat else none
  else none

/-- The addresses where `do_sys_read` stores the character: one or none. -/
def readTarget (arg0 arg1 count : Word) : Set ℕ :=
  {a | arg0.setWidth 32 = 0#32 ∧ arg1 ≠ 0 ∧ count ≠ 0 ∧ a = arg1.toNat}

/-- The addresses where a trap makes the kernel store input. -/
def Service.stores (service : Service n) (cause : Word) (h : Hart) : Set ℕ :=
  match service with
  | .trapHandler => {a | syscallOf cause (h.reg .a7) = some .read ∧
      a ∈ readTarget (h.reg .a0) (h.reg .a1) (h.reg .a2)}
  | _ => ∅

/-- A trap has been taken in `s` while task `c` was running, and the handler is about to be called
in `s'`. -/
structure TrapTaken (L : Layout n) (c : Fin n) (cause : Word) (s s' : Machine n) : Prop where
  changed : ChangedIn (L.stackRange c) s.mem s'.mem
  freeList : s'.phys.freeList = s.phys.freeList
  root : s'.rootPageTable = s.rootPageTable
  sched : s'.sched = s.sched
  userStacks : s'.taskUserStacks = s.taskUserStacks
  frame : ∀ r, tfLoad s'.mem (L.taskTrapFrame c) (regField r) = s.hart.reg r
  sp : (s'.hart.reg .sp).toNat = L.taskTrapFrame c
  satp : s'.hart.csr .satp = s.hart.csr .satp
  cause_arg : s'.hart.reg .a0 = cause
  epc_arg : s'.hart.reg .a1 = s.hart.pc
  arg0_arg : s'.hart.reg .a3 = s.hart.reg .a0
  arg1_arg : s'.hart.reg .a4 = s.hart.reg .a1
  sysNum_arg : s'.hart.reg .a5 = s.hart.reg .a7
  tf_arg : (s'.hart.reg .a6).toNat = L.taskTrapFrame c

variable {L : Layout n} {img : AppImage} {fits : Prop} {W : Set ℕ} {c : Fin n} {s s' : Machine n}
  {r : Handled n} {cause epc tval arg0 arg1 sysNum : Word} {ch : Byte} {tf : ℕ}

/-! ### The handler -/

/-- `trap_handler` yields in a timer interrupt, passes over another one, or makes a system call. -/
theorem trapHandler_cases
    (h : trapHandler L img ch cause epc tval arg0 arg1 sysNum tf s = some r) :
    (isInterrupt cause = true ∧ exceptionCode cause = 7 ∧ taskYield (some epc) s = some r) ∨
    (isInterrupt cause = true ∧ exceptionCode cause ≠ 7 ∧ r = .returned epc s) ∨
    (∃ call, syscallOf cause sysNum = some call ∧
      call.handler L img ch arg0 arg1 epc tf s = some r) ∨
    (isInterrupt cause = false ∧ syscallOf cause sysNum = none ∧
      r = .returned (epc + 4#64) s) := by
  rw [trapHandler] at h
  cases hint : isInterrupt cause with
  | true =>
    rw [hint, if_pos rfl] at h
    -- a timer interrupt yields, any other one is left at once
    split_ifs at h with hcode
    · exact Or.inl ⟨rfl, hcode, h⟩
    · exact Or.inr (Or.inl ⟨rfl, hcode, (Option.some.inj h).symm⟩)
  | false =>
    rw [hint, if_neg (by simp)] at h
    have hsyscall : ∀ hcode : exceptionCode cause = 8 ∨ exceptionCode cause = 11,
        syscallOf cause sysNum
          = if sysNum.toNat < maxSyscallNum then sysCallTable sysNum.toNat else none := by
      intro hcode
      rw [syscallOf, hint, if_neg (by simp), if_pos hcode]
    split_ifs at h with hcode hnum
    · rw [hsyscall hcode, if_pos hnum]
      cases hcall : sysCallTable sysNum.toNat with
      | none =>
        rw [hcall] at h
        exact Or.inr (Or.inr (Or.inr ⟨rfl, rfl, (Option.some.inj h).symm⟩))
      | some call =>
        rw [hcall] at h
        exact Or.inr (Or.inr (Or.inl ⟨call, rfl, h⟩))
    · rw [hsyscall hcode, if_neg hnum]
      exact Or.inr (Or.inr (Or.inr ⟨rfl, rfl, (Option.some.inj h).symm⟩))

/-- `trap_handler` goes to the entry of the table. -/
theorem trapHandler_of_call {call : Syscall} (hcall : syscallOf cause sysNum = some call) :
    trapHandler L img ch cause epc tval arg0 arg1 sysNum tf s
      = call.handler L img ch arg0 arg1 epc tf s := by
  rw [syscallOf] at hcall
  split_ifs at hcall with hint hcode hnum
  rw [trapHandler, if_neg hint, if_pos hcode, if_pos hnum, hcall]

/-- What the read system call does to memory: it stores the character at its target, if it has
one, and the result in the trapframe. -/
theorem doSysRead_spec (ch : Byte) (arg0 arg1 epc : Word) (tf : ℕ) (s : Machine n) :
    ∃ m v, doSysRead ch arg0 arg1 epc tf s
        = some (.returned (epc + 4#64) (s.withMem (tfStore m tf .a0 v))) ∧
      ((readTarget arg0 arg1 (tfLoad s.mem tf .a2) = ∅ ∧ m = s.mem ∧ v = -1) ∨
        (arg1.toNat ∈ readTarget arg0 arg1 (tfLoad s.mem tf .a2) ∧
          m = storeByte s.mem arg1.toNat (received ch) ∧ v = 1)) := by
  rw [doSysRead]
  dsimp only
  split_ifs with hrefuse
  · refine ⟨_, _, rfl, Or.inl ⟨?_, rfl, rfl⟩⟩
    rw [Set.eq_empty_iff_forall_notMem]
    rintro a ⟨h0, h1, h2, -⟩
    rcases hrefuse with h | h | h
    · exact h h0
    · exact h1 h
    · exact h2 h
  · rw [not_or, not_or, not_not] at hrefuse
    exact ⟨_, _, rfl, Or.inr ⟨⟨hrefuse.1, hrefuse.2.1, hrefuse.2.2, rfl⟩, rfl, rfl⟩⟩

theorem doSysRead_good (h : Entered L fits c s)
    (hW : ∀ a ∈ readTarget arg0 arg1 (tfLoad s.mem (L.taskTrapFrame c) .a2),
      a ∈ W ∧ a ∉ kernelBytes L s)
    (hr : doSysRead ch arg0 arg1 epc (L.taskTrapFrame c) s = some r) : r.Good L fits W c s := by
  obtain ⟨m, v, heq, hcases⟩ := doSysRead_spec ch arg0 arg1 epc (L.taskTrapFrame c) s
  obtain rfl := Option.some.inj (heq.symm.trans hr)
  refine ⟨?_, h.sched, h.current⟩
  rcases hcases with ⟨-, rfl, -⟩ | ⟨htarget, rfl, -⟩
  · exact h.serviced.withStack (changedIn_frame L c _ _ _)
  · obtain ⟨hmemW, hout⟩ := hW _ htarget
    have hstore := OnBehalf.of_store (c := c) h.memOk hout (received ch)
    have hserviced : Serviced L fits W c s
        (s.withMem (storeByte s.mem arg1.toNat (received ch))) := by
      refine ⟨hstore.mono fun a ha _ _ _ _ => ?_, rfl, fun _ => ?_,
        fun _ hid hid' => absurd hid' hid⟩
      · rwa [Set.mem_singleton_iff.mp ha]
      · rw [Machine.withMem_mem, contextLoad_congr fun a ha =>
          storeByte_kernelPart hout (received ch) a (Or.inl ha)]
        exact h.satp
    exact hserviced.withStack (changedIn_frame L c _ _ _)

/-! ### The trap -/

/-- The registers after the trap, before `trap_vector`. -/
theorem trap_spec (h : Hart) (cause tval mtvec : Word) :
    (h.trap cause tval mtvec).reg = h.reg ∧ (h.trap cause tval mtvec).csr .mepc = h.pc ∧
      (h.trap cause tval mtvec).csr .mcause = cause ∧
      ∀ r, r = .mscratch ∨ r = .satp → (h.trap cause tval mtvec).csr r = h.csr r := by
  refine ⟨rfl, rfl, rfl, ?_⟩
  rintro r (rfl | rfl) <;> rfl

theorem trapTaken_of_trapped {r : Hart × Mem}
    (h : Trapped (s.hart.trap cause tval L.trapVector) s.mem (L.taskTrapFrame c) r.1 r.2) :
    TrapTaken L c cause s { s.withMem r.2 with hart := r.1 } := by
  obtain ⟨hreg, hmepc, hmcause, hcsr⟩ := trap_spec s.hart cause tval L.trapVector
  exact {
    changed := h.changed.mono fun a ha => mem_stackRange_of_frame ha.1 ha.2
    freeList := rfl
    root := rfl
    sched := rfl
    userStacks := rfl
    frame := fun r => (h.reg r).trans (congrFun hreg r)
    sp := h.sp
    satp := h.satp.trans (hcsr _ (Or.inr rfl))
    cause_arg := h.cause_arg.trans hmcause
    epc_arg := h.epc_arg.trans hmepc
    arg0_arg := h.arg0_arg.trans (congrFun hreg _)
    arg1_arg := h.arg1_arg.trans (congrFun hreg _)
    sysNum_arg := h.sysNum_arg.trans (congrFun hreg _)
    tf_arg := h.tf_arg }

/-- With `mscratch` at the end of its kernel stack, a task is trapped into its trapframe. -/
theorem entered_spec (hms : (s.hart.csr .mscratch).toNat = L.kernelStackEnd c) (cause tval : Word) :
    TrapTaken L c cause s (entered L cause tval s) := by
  have hms' : ((s.hart.trap cause tval L.trapVector).csr .mscratch).toNat
      = L.taskTrapFrame c + sizeofTrapframe := by
    rw [(trap_spec _ _ _ _).2.2.2 _ (Or.inl rfl), hms, L.kernelStackEnd_eq]
  exact trapTaken_of_trapped (trapEntry_spec hms')

namespace TrapTaken

theorem context_eq (h : TrapTaken L c cause s s') (id : Fin n) :
    ∀ a ∈ L.contextRange id, s'.mem a = s.mem a :=
  fun a ha => h.changed a (Layout.contextRange_not_stack ha)

theorem live_iff (h : TrapTaken L c cause s s') (id : Fin n) : s'.Live id ↔ s.Live id := by
  rw [Machine.Live, Machine.Live, h.sched]

theorem onBehalf (h : TrapTaken L c cause s s') (hmem : MemOk L fits s) (W : Set ℕ) :
    OnBehalf L fits W c s s' :=
  OnBehalf.of_kernelWrite hmem h.changed (fun a ha => Or.inr ha)
    (fun _ => contextLoad_congr (h.context_eq c) .satp) h.freeList h.root h.live_iff
    fun _ _ => by rw [h.userStacks]

theorem entered (h : TrapTaken L c cause s s') (he : Entered L fits c s) : Entered L fits c s' where
  memOk := (h.onBehalf he.memOk ∅).memOk
  sched := by
    rw [h.sched]
    exact he.sched
  current := by rw [h.sched, he.current]
  satp := by rw [h.satp, he.satp, contextLoad_congr (h.context_eq c)]

theorem kernelBytes_subset (h : TrapTaken L c cause s s') (hmem : MemOk L fits s) :
    kernelBytes L s' ⊆ kernelBytes L s := by
  refine RiscvKernel.kernelBytes_subset hmem ?_ h.freeList h.root h.live_iff
    fun id => taskPageTable_congr (contextLoad_congr (h.context_eq id) .satp)
  exact Layout.eqOff_image h.changed fun a ha => (Layout.mem_stackRange_bounds ha).2

end TrapTaken

/-! ### The whole handler -/

/-- A system call of the table, with the arguments of the user program. -/
theorem serve_call {s₁ : Machine n} {call : Syscall} (ht : TrapTaken L c cause s s₁)
    (hcall : syscallOf cause (s.hart.reg .a7) = some call) :
    serve L img .trapHandler ch s₁ = call.handler L img ch (s.hart.reg .a0) (s.hart.reg .a1)
      s.hart.pc (L.taskTrapFrame c) s₁ := by
  rw [serve, ht.cause_arg, ht.epc_arg, ht.arg0_arg, ht.arg1_arg, ht.sysNum_arg, ht.tf_arg]
  exact trapHandler_of_call hcall

/-- Whatever the kernel does in a trap is good, if it stores input in none of its own memory. -/
theorem serve_good {service : Service n} {s₁ : Machine n} (ht : TrapTaken L c cause s s₁)
    (he : Entered L fits c s) (hfits : fits → img.Fits)
    (hW : ∀ a ∈ service.stores cause s.hart, a ∈ W ∧ a ∉ kernelBytes L s)
    (hr : serve L img service ch s₁ = some r) : r.Good L fits W c s₁ := by
  have h₁ := ht.entered he
  cases service with
  | trapHandler =>
    rw [serve, ht.cause_arg, ht.arg0_arg, ht.arg1_arg, ht.sysNum_arg, ht.tf_arg] at hr
    -- the timer interrupt, another interrupt, a system call, and what else may trap
    rcases trapHandler_cases hr with ⟨-, -, hyield⟩ | ⟨-, -, rfl⟩ | ⟨call, hcall, hr⟩ | ⟨-, -, rfl⟩
    · exact h₁.taskYield_good (by simp) hyield
    · exact ⟨h₁.serviced, h₁.sched, h₁.current⟩
    · cases call with
      | read =>
        refine doSysRead_good h₁ (fun a ha => ?_) hr
        have hcount : tfLoad s₁.mem (L.taskTrapFrame c) .a2 = s.hart.reg .a2 := ht.frame .a2
        rw [hcount] at ha
        obtain ⟨hmemW, hout⟩ := hW a ⟨hcall, ha⟩
        exact ⟨hmemW, fun hmem => hout (ht.kernelBytes_subset he.memOk hmem)⟩
      | write =>
        obtain rfl := Option.some.inj hr
        exact ⟨h₁.serviced, h₁.sched, h₁.current⟩
      | schedYield => exact h₁.taskYield_good (by simp) hr
      | exit => exact h₁.taskExit_good hr
      | clone =>
        exact h₁.doSysClone_good (s.hart.reg .a0) (s.hart.reg .a1) hr
      | execve =>
        exact h₁.doSysExecve_good (s.hart.reg .a0) (s.hart.reg .a1) hfits hr
    · exact ⟨h₁.serviced, h₁.sched, h₁.current⟩
  | sleep => exact h₁.taskSleep_good (by simp) hr
  | wakeup id =>
    rw [serve] at hr
    split_ifs at hr with hid
    obtain rfl := Option.some.inj hr
    exact h₁.taskWakeup_good hid _

end RiscvKernel
