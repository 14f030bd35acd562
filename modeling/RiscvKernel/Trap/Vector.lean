import RiscvKernel.Trap.Frame

/-!
# Entry, exit and context switch code

The assembly of `kernel/trap.S` and `kernel/switch.S`, with what each piece of it does to the
registers and the memory:

* `trapEntry_spec`: a trap saves all registers in the frame below `mscratch`;
* `trapReturn_spec`: the exit path restores all registers from the frame at `sp` and leaves
  `mscratch` at the end of that frame;
* `switchTo_spec`: a context switch saves the callee-saved registers and `satp` in one context
  and loads them from another.
-/

namespace RiscvKernel

open ByteMemory Riscv

/-! ### The code -/

/-- `trap_vector`, the registers it stores first, in the source's order. -/
def trapSaves : List (Reg × ℕ) :=
  [(.ra, tfOff .ra), (.gp, tfOff .gp), (.tp, tfOff .tp), (.t0, tfOff .t0), (.t1, tfOff .t1),
    (.t2, tfOff .t2), (.s0, tfOff .s0), (.s1, tfOff .s1), (.a0, tfOff .a0), (.a1, tfOff .a1),
    (.a2, tfOff .a2), (.a3, tfOff .a3), (.a4, tfOff .a4), (.a5, tfOff .a5), (.a6, tfOff .a6),
    (.a7, tfOff .a7), (.s2, tfOff .s2), (.s3, tfOff .s3), (.s4, tfOff .s4), (.s5, tfOff .s5),
    (.s6, tfOff .s6), (.s7, tfOff .s7), (.s8, tfOff .s8), (.s9, tfOff .s9), (.s10, tfOff .s10),
    (.s11, tfOff .s11), (.t3, tfOff .t3), (.t4, tfOff .t4), (.t5, tfOff .t5), (.t6, tfOff .t6)]

/-- `trap_vector`, up to the call of `trap_handler`. -/
def trapEntry : List Instr :=
  -- the user's `sp` goes to `mscratch`, the end of the kernel stack to `sp`
  [.csrrw .sp .mscratch .sp, .addi .sp .sp (-(BitVec.ofNat 64 sizeofTrapframe))] ++
  trapSaves.map (fun p => .sd p.1 .sp p.2) ++
  [.csrr .t0 .mepc, .sd .t0 .sp (tfOff .epc), .csrr .t0 .mscratch, .sd .t0 .sp (tfOff .userSp),
    -- the arguments of `trap_handler`
    .csrr .a0 .mcause, .csrr .a1 .mepc, .csrr .a2 .mtval, .ld .a3 .sp (tfOff .a0),
    .ld .a4 .sp (tfOff .a1), .ld .a5 .sp (tfOff .a7), .mv .a6 .sp]

/-- `trap_vector`, after the call of `trap_handler`; it falls through to `trap_return`. -/
def trapExit : List Instr := [.sd .a0 .sp (tfOff .epc), .csrw .mepc .a0]

/-- `trap_return`, the registers it loads before `mstatus` is set, in the source's order. -/
def trapLoads : List (Reg × ℕ) :=
  [(.ra, tfOff .ra), (.gp, tfOff .gp), (.tp, tfOff .tp), (.t2, tfOff .t2), (.s0, tfOff .s0),
    (.s1, tfOff .s1), (.a0, tfOff .a0), (.a1, tfOff .a1), (.a2, tfOff .a2), (.a3, tfOff .a3),
    (.a4, tfOff .a4), (.a5, tfOff .a5), (.a6, tfOff .a6), (.a7, tfOff .a7), (.s2, tfOff .s2),
    (.s3, tfOff .s3), (.s4, tfOff .s4), (.s5, tfOff .s5), (.s6, tfOff .s6), (.s7, tfOff .s7),
    (.s8, tfOff .s8), (.s9, tfOff .s9), (.s10, tfOff .s10), (.s11, tfOff .s11),
    (.t3, tfOff .t3), (.t4, tfOff .t4), (.t5, tfOff .t5), (.t6, tfOff .t6)]

/-- `trap_return`, up to `mret`, in three parts: the control registers, the general registers,
and the way back to user mode with interrupts on. -/
def trapReturnStart : List Instr :=
  [.ld .t2 .sp (tfOff .epc), .csrw .mepc .t2, .ld .t0 .sp (tfOff .userSp), .csrw .mscratch .t0]

@[inherit_doc trapReturnStart]
def trapReturnLoads : List Instr := trapLoads.map fun p => .ld p.1 .sp p.2

@[inherit_doc trapReturnStart]
def trapReturnEnd : List Instr :=
  [.li .t1 (3#64 <<< 11), .csrc .mstatus .t1, .li .t1 (1#64 <<< 7), .csrs .mstatus .t1,
    .ld .t0 .sp (tfOff .t0), .ld .t1 .sp (tfOff .t1),
    .addi .sp .sp (BitVec.ofNat 64 sizeofTrapframe), .csrrw .sp .mscratch .sp]

/-- `trap_return`. -/
def trapReturn (s : Hart × Mem) : Hart × Mem :=
  let s := run trapReturnEnd (run trapReturnLoads (run trapReturnStart s))
  (s.1.mret, s.2)

/-- The registers `switch_to` stores and loads, in the source's order. -/
def switchRegs : List (Reg × ℕ) :=
  [(.ra, contextOff .ra), (.sp, contextOff .sp), (.s0, contextOff .s0), (.s1, contextOff .s1),
    (.s2, contextOff .s2), (.s3, contextOff .s3), (.s4, contextOff .s4), (.s5, contextOff .s5),
    (.s6, contextOff .s6), (.s7, contextOff .s7), (.s8, contextOff .s8), (.s9, contextOff .s9),
    (.s10, contextOff .s10), (.s11, contextOff .s11)]

/-- `switch_to`, up to `ret`. -/
def switchTo : List Instr :=
  [.csrr .t0 .satp] ++ switchRegs.map (fun p => .sd p.1 .a0 p.2) ++
  [.sd .t0 .a0 (contextOff .satp), .ld .t0 .a1 (contextOff .satp), .csrw .satp .t0, .sfenceVma] ++
  switchRegs.map (fun p => .ld p.1 .a1 p.2)

/-! ### Which register is where -/

/-- The field of the trapframe that holds a register. -/
def regField : Reg → TfField
  | .ra => .ra | .sp => .userSp | .gp => .gp | .tp => .tp | .t0 => .t0 | .t1 => .t1 | .t2 => .t2
  | .s0 => .s0 | .s1 => .s1 | .a0 => .a0 | .a1 => .a1 | .a2 => .a2 | .a3 => .a3 | .a4 => .a4
  | .a5 => .a5 | .a6 => .a6 | .a7 => .a7 | .s2 => .s2 | .s3 => .s3 | .s4 => .s4 | .s5 => .s5
  | .s6 => .s6 | .s7 => .s7 | .s8 => .s8 | .s9 => .s9 | .s10 => .s10 | .s11 => .s11
  | .t3 => .t3 | .t4 => .t4 | .t5 => .t5 | .t6 => .t6

/-- The registers a function must give back as it got them, with the return address, which a
context keeps, and the field that keeps each. -/
def keptRegs : List (Reg × ContextField) :=
  [(.ra, .ra), (.sp, .sp), (.s0, .s0), (.s1, .s1), (.s2, .s2), (.s3, .s3), (.s4, .s4), (.s5, .s5),
    (.s6, .s6), (.s7, .s7), (.s8, .s8), (.s9, .s9), (.s10, .s10), (.s11, .s11)]

theorem regField_ne_epc (r : Reg) : regField r ≠ .epc := by
  cases r <;> decide

theorem regField_eq_userSp {r : Reg} : regField r = .userSp ↔ r = .sp := by
  cases r <;> decide

theorem switchRegs_eq : switchRegs = keptRegs.map fun p => (p.1, p.2.offset) := rfl

theorem mem_trapSaves {r : Reg} (hr : r ≠ .sp) : (r, (regField r).offset) ∈ trapSaves := by
  cases r <;> first | exact absurd rfl hr | decide

variable {h : Hart} {m : Mem} {tf : ℕ}

/-! ### Entry -/

/-- What trap entry leaves: every register of the interrupted program in the frame, and the
arguments of `trap_handler` in their registers. -/
structure Trapped (h : Hart) (m : Mem) (tf : ℕ) (h' : Hart) (m' : Mem) : Prop where
  changed : ChangedIn (Set.Ico tf (tf + sizeofTrapframe)) m m'
  reg : ∀ r, tfLoad m' tf (regField r) = h.reg r
  epc : tfLoad m' tf .epc = h.csr .mepc
  sp : (h'.reg .sp).toNat = tf
  satp : h'.csr .satp = h.csr .satp
  priv : h'.priv = h.priv
  cause_arg : h'.reg .a0 = h.csr .mcause
  epc_arg : h'.reg .a1 = h.csr .mepc
  arg0_arg : h'.reg .a3 = h.reg .a0
  arg1_arg : h'.reg .a4 = h.reg .a1
  sysNum_arg : h'.reg .a5 = h.reg .a7
  tf_arg : (h'.reg .a6).toNat = tf

/-- Trap entry saves the registers in the frame that ends at `mscratch`. -/
theorem trapEntry_spec (hms : (h.csr .mscratch).toNat = tf + sizeofTrapframe) :
    Trapped h m tf (run trapEntry (h, m)).1 (run trapEntry (h, m)).2 := by
  have hlt := (h.csr .mscratch).isLt
  rw [hms] at hlt
  -- after the swap `sp` points at the frame
  set h₁ : Hart := ((h.setCsr .mscratch (h.reg .sp)).setReg .sp (h.csr .mscratch)).setReg .sp
    (h.csr .mscratch + -(BitVec.ofNat 64 sizeofTrapframe)) with hh₁
  have hstart : run [.csrrw .sp .mscratch .sp, .addi .sp .sp (-(BitVec.ofNat 64 sizeofTrapframe))]
      (h, m) = (h₁, m) := by
    simp [exec, hh₁]
  have hsp : (h₁.reg .sp).toNat = tf := by
    rw [hh₁, Hart.setReg_reg, if_pos rfl, BitVec.toNat_add, BitVec.toNat_neg, hms]
    simp only [sizeofTrapframe, BitVec.toNat_ofNat] at hlt ⊢
    omega
  have hreg : ∀ r, r ≠ .sp → h₁.reg r = h.reg r := by
    intro r hr
    simp [hh₁, hr]
  -- the stores of the registers
  have hin : ∀ p ∈ trapSaves, p.2 + 8 ≤ sizeofTrapframe := by decide
  have hsaved := run_stores (m := m) hsp hlt hin (by decide)
  obtain ⟨hh₂, hchanged⟩ := run_stores_frame (m := m) hsp hlt hin
  set m₂ := (run (trapSaves.map fun p => .sd p.1 .sp p.2) (h₁, m)).2 with hm₂
  have hsaves : run (trapSaves.map fun p => .sd p.1 .sp p.2) (h₁, m) = (h₁, m₂) :=
    Prod.ext hh₂ rfl
  -- the last two stores
  set m₃ := tfStore (tfStore m₂ tf .epc (h.csr .mepc)) tf .userSp (h.reg .sp) with hm₃
  have hloads : ∀ r, tfLoad m₃ tf (regField r) = h.reg r := by
    intro r
    rw [hm₃, tfLoad_tfStore, tfLoad_tfStore, if_neg (regField_ne_epc r)]
    split_ifs with hr
    · rw [regField_eq_userSp.mp hr]
    · rw [regField_eq_userSp] at hr
      rw [← hreg r hr]
      exact hsaved _ (mem_trapSaves hr)
  have hframe : ChangedIn (Set.Ico tf (tf + sizeofTrapframe)) m m₃ :=
    (hchanged.trans (changedIn_tfStore _ _ _ _)).trans (changedIn_tfStore _ _ _ _)
  -- and the arguments
  have haddr : ∀ f, h₁.addr .sp (tfOff f) = tf + f.offset := by
    intro f
    rw [tfOff_eq]
    exact Hart.addr_eq hsp (by have := f.offset_lt; omega)
  have hmscratch : h₁.csr .mscratch = h.reg .sp := by simp [hh₁]
  have hcsr : ∀ c, c ≠ .mscratch → h₁.csr c = h.csr c := by
    intro c hc
    simp [hh₁, hc]
  set h₃ : Hart := (((((((((h₁.setReg .t0 (h.csr .mepc)).setReg .t0 (h.reg .sp)).setReg .a0
    (h.csr .mcause)).setReg .a1 (h.csr .mepc)).setReg .a2 (h.csr .mtval)).setReg .a3
    (tfLoad m₃ tf .a0)).setReg .a4 (tfLoad m₃ tf .a1)).setReg .a5 (tfLoad m₃ tf .a7)).setReg .a6
    (h₁.reg .sp)) with hh₃
  have hrun : run trapEntry (h, m) = (h₃, m₃) := by
    rw [trapEntry, run_append, run_append, hstart, hsaves]
    simp only [run_cons, run_nil, exec]
    simp [haddr, hmscratch, hcsr, hm₃, hh₃, tfStore, tfLoad]
  rw [hrun]
  refine ⟨hframe, hloads, ?_, ?_, ?_, ?_, ?_, ?_, ?_, ?_, ?_, ?_⟩
  · rw [hm₃, tfLoad_tfStore, tfLoad_tfStore, if_neg (by decide), if_pos rfl]
  · simpa [hh₃] using hsp
  · simp [hh₃, hcsr]
  · simp [hh₃, hh₁]
  · simp [hh₃]
  · simp [hh₃]
  · simpa [hh₃, regField] using hloads .a0
  · simpa [hh₃, regField] using hloads .a1
  · simpa [hh₃, regField] using hloads .a7
  · simpa [hh₃] using hsp

/-! ### Exit -/

/-- What the exit path leaves: user mode, every register as the frame has it, and `mscratch` at
the end of the frame. -/
structure Returned (h : Hart) (m : Mem) (tf : ℕ) (h' : Hart) : Prop where
  reg : ∀ r, h'.reg r = tfLoad m tf (regField r)
  pc : h'.pc = tfLoad m tf .epc
  priv : h'.priv = .user
  mscratch : (h'.csr .mscratch).toNat = tf + sizeofTrapframe
  satp : h'.csr .satp = h.csr .satp

/-- Clearing the two bits of `MPP` makes `mret` go to user mode. -/
theorem mpp_cleared (x : Word) : mpp (x &&& ~~~ (3#64 <<< 11) ||| 1#64 <<< 7) = .user := by
  rw [mpp, if_pos]
  have hmask : ∀ y : Word, y >>> 11 &&& 3#64 = (y &&& 3#64 <<< 11) >>> 11 := by
    intro y
    rw [BitVec.ushiftRight_and_distrib]
    rfl
  rw [hmask, BitVec.and_or_distrib_right, BitVec.and_assoc, BitVec.not_and_self]
  simp

theorem mem_trapLoads {r : Reg} (hr : r ≠ .sp ∧ r ≠ .t0 ∧ r ≠ .t1) :
    (r, (regField r).offset) ∈ trapLoads := by
  revert hr
  cases r <;> decide

theorem addr_tfOff (hsp : (h.reg .sp).toNat = tf) (hlt : tf + sizeofTrapframe < 2 ^ 64)
    (f : TfField) : h.addr .sp (tfOff f) = tf + f.offset := by
  rw [tfOff_eq]
  exact Hart.addr_eq hsp (by have := f.offset_lt; omega)

/-- The last part of the exit path, once the other registers are restored. -/
theorem returned_of_loaded {h₀ : Hart} (hsp : (h.reg .sp).toNat = tf)
    (hlt : tf + sizeofTrapframe < 2 ^ 64)
    (hreg : ∀ r, r ≠ .sp ∧ r ≠ .t0 ∧ r ≠ .t1 → h.reg r = tfLoad m tf (regField r))
    (hmepc : h.csr .mepc = tfLoad m tf .epc) (hms : h.csr .mscratch = tfLoad m tf .userSp)
    (hsatp : h.csr .satp = h₀.csr .satp) :
    Returned h₀ m tf (run trapReturnEnd (h, m)).1.mret ∧ (run trapReturnEnd (h, m)).2 = m := by
  set sp' := h.reg .sp + BitVec.ofNat 64 sizeofTrapframe with hsp'
  set h₁ : Hart := ((((((((h.setReg .t1 (3#64 <<< 11)).setCsr .mstatus
    (h.csr .mstatus &&& ~~~ (3#64 <<< 11))).setReg .t1 (1#64 <<< 7)).setCsr .mstatus
    (h.csr .mstatus &&& ~~~ (3#64 <<< 11) ||| 1#64 <<< 7)).setReg .t0 (tfLoad m tf .t0)).setReg .t1
    (tfLoad m tf .t1)).setReg .sp sp').setCsr .mscratch sp').setReg .sp (h.csr .mscratch) with hh₁
  -- the last instructions, run one by one
  have hrun : run trapReturnEnd (h, m) = (h₁, m) := by
    simp only [trapReturnEnd, run_cons, run_nil, exec]
    simp [addr_tfOff hsp hlt, hh₁, hsp', tfLoad]
  have hpriv : h₁.csr .mstatus = h.csr .mstatus &&& ~~~ (3#64 <<< 11) ||| 1#64 <<< 7 := by
    simp [hh₁]
  rw [hrun]
  refine ⟨⟨fun r => ?_, ?_, ?_, ?_, ?_⟩, rfl⟩
  · change h₁.reg r = _
    by_cases hr : r ≠ .sp ∧ r ≠ .t0 ∧ r ≠ .t1
    · simp [hh₁, hr, hreg]
    · -- `sp` comes back from `mscratch`, the two temporaries are loaded last
      obtain rfl | rfl | rfl : r = .sp ∨ r = .t0 ∨ r = .t1 := by
        revert hr
        cases r <;> decide
      · simp [hh₁, hms, regField]
      · simp [hh₁, regField]
      · simp [hh₁, regField]
  · simp [Hart.mret, hh₁, hmepc]
  · change mpp (h₁.csr .mstatus) = _
    rw [hpriv, mpp_cleared]
  · have hend : sp'.toNat = tf + sizeofTrapframe := by
      rw [hsp', BitVec.toNat_add, BitVec.toNat_ofNat, hsp]
      omega
    simpa [Hart.mret, hh₁] using hend
  · simp [Hart.mret, hh₁, hsatp]

/-- The exit path restores the registers from the frame at `sp` and changes no memory. -/
theorem trapReturn_spec (hsp : (h.reg .sp).toNat = tf) (hlt : tf + sizeofTrapframe < 2 ^ 64) :
    Returned h m tf (trapReturn (h, m)).1 ∧ (trapReturn (h, m)).2 = m := by
  -- `mepc` and `mscratch` first
  have hstart : run trapReturnStart (h, m)
      = ((((h.setReg .t2 (tfLoad m tf .epc)).setCsr .mepc (tfLoad m tf .epc)).setReg .t0
        (tfLoad m tf .userSp)).setCsr .mscratch (tfLoad m tf .userSp), m) := by
    simp only [trapReturnStart, run_cons, run_nil, exec]
    simp [addr_tfOff hsp hlt, tfLoad]
  rw [trapReturn, hstart]
  generalize hh₁ : (((h.setReg .t2 (tfLoad m tf .epc)).setCsr .mepc (tfLoad m tf .epc)).setReg .t0
    (tfLoad m tf .userSp)).setCsr .mscratch (tfLoad m tf .userSp) = h₁
  have hsp₁ : (h₁.reg .sp).toNat = tf := by simpa [← hh₁] using hsp
  -- then the registers other than `sp`, `t0` and `t1`
  obtain ⟨hloaded, hkept, hcsr, -, -, hm⟩ := run_loads (m := m) (l := trapLoads) hsp₁ hlt
    (by decide) (by decide) (by decide)
  rw [← trapReturnLoads] at hloaded hkept hcsr hm
  generalize run trapReturnLoads (h₁, m) = s at hloaded hkept hcsr hm
  obtain ⟨h₂, m₂⟩ := s
  obtain rfl : m₂ = m := hm
  change h₂.csr = h₁.csr at hcsr
  apply returned_of_loaded _ hlt
  · exact fun r hr => hloaded _ (mem_trapLoads hr)
  · simp [hcsr, ← hh₁]
  · simp [hcsr, ← hh₁]
  · simp [hcsr, ← hh₁]
  · rw [← hsp₁, ← hkept .sp (by decide)]

/-! ### Switching -/

/-- What `switch_to` leaves: the registers that count in the previous context, and those of the
next context in the registers. -/
structure Switched (h : Hart) (m : Mem) (prev next : ℕ) (h' : Hart) (m' : Mem) : Prop where
  changed : ChangedIn (Set.Ico prev (prev + sizeofContext)) m m'
  saved : ∀ p ∈ keptRegs, contextLoad m' prev p.2 = h.reg p.1
  saved_satp : contextLoad m' prev .satp = h.csr .satp
  loaded : ∀ p ∈ keptRegs, h'.reg p.1 = contextLoad m' next p.2
  loaded_satp : h'.csr .satp = contextLoad m' next .satp
  priv : h'.priv = h.priv

theorem mem_switchRegs {p : Reg × ContextField} (hp : p ∈ keptRegs) :
    (p.1, p.2.offset) ∈ switchRegs := by
  rw [switchRegs_eq]
  exact List.mem_map_of_mem hp

theorem keptRegs_ne {p : Reg × ContextField} (hp : p ∈ keptRegs) :
    p.1 ≠ .t0 ∧ p.2 ≠ .satp := by
  revert p
  decide

theorem addr_contextOff {base : Reg} {ctx : ℕ} (hb : (h.reg base).toNat = ctx)
    (hlt : ctx + sizeofContext < 2 ^ 64) (f : ContextField) :
    h.addr base (contextOff f) = ctx + f.offset := by
  rw [contextOff_eq]
  exact Hart.addr_eq hb (by have := f.offset_lt; omega)

/-- The first half of `switch_to`: the context of the task that is left. -/
theorem switchTo_saves {prev : ℕ} (hprev : (h.reg .a0).toNat = prev)
    (hlt : prev + sizeofContext < 2 ^ 64) :
    ∃ m', run (switchRegs.map fun p => .sd p.1 .a0 p.2) (h, m) = (h, m') ∧
      ChangedIn (Set.Ico prev (prev + sizeofContext)) m m' ∧
      ∀ p ∈ keptRegs, contextLoad m' prev p.2 = h.reg p.1 := by
  have hin : ∀ p ∈ switchRegs, p.2 + 8 ≤ sizeofContext := by decide
  have hsaved := run_stores (m := m) hprev hlt hin (by decide)
  obtain ⟨hh, hchanged⟩ := run_stores_frame (m := m) hprev hlt hin
  exact ⟨_, Prod.ext hh rfl, hchanged, fun p hp => hsaved _ (mem_switchRegs hp)⟩

/-- `switch_to` saves one context and loads another. -/
theorem switchTo_spec {prev next : ℕ} (hprev : (h.reg .a0).toNat = prev)
    (hnext : (h.reg .a1).toNat = next) (hprevLt : prev + sizeofContext < 2 ^ 64)
    (hnextLt : next + sizeofContext < 2 ^ 64) :
    Switched h m prev next (run switchTo (h, m)).1 (run switchTo (h, m)).2 := by
  have hprev₁ : ((h.setReg .t0 (h.csr .satp)).reg .a0).toNat = prev := by simpa using hprev
  have hnext₁ : ((h.setReg .t0 (h.csr .satp)).reg .a1).toNat = next := by simpa using hnext
  obtain ⟨m₂, hsaves, hchanged, hsaved⟩ := switchTo_saves (m := m) hprev₁ hprevLt
  -- `satp` goes to the one context and comes from the other
  have hsatp : run [.sd .t0 .a0 (contextOff .satp), .ld .t0 .a1 (contextOff .satp),
      .csrw .satp .t0, .sfenceVma] (h.setReg .t0 (h.csr .satp), m₂)
      = (((h.setReg .t0 (h.csr .satp)).setReg .t0 (contextLoad
          (contextStore m₂ prev .satp (h.csr .satp)) next .satp)).setCsr .satp
          (contextLoad (contextStore m₂ prev .satp (h.csr .satp)) next .satp),
        contextStore m₂ prev .satp (h.csr .satp)) := by
    simp only [run_cons, run_nil, exec, addr_contextOff hprev₁ hprevLt,
      addr_contextOff hnext₁ hnextLt]
    simp [contextStore, contextLoad]
  have hfirst : run [.csrr .t0 .satp] (h, m) = (h.setReg .t0 (h.csr .satp), m) := rfl
  rw [switchTo, run_append, run_append, run_append, hfirst, hsaves, hsatp]
  generalize hm₃ : contextStore m₂ prev .satp (h.csr .satp) = m₃
  generalize hh₃ : ((h.setReg .t0 (h.csr .satp)).setReg .t0 (contextLoad m₃ next .satp)).setCsr
    .satp (contextLoad m₃ next .satp) = h₃
  have hnext₃ : (h₃.reg .a1).toNat = next := by simpa [← hh₃] using hnext
  obtain ⟨hloaded, -, hcsr, -, hpriv, hm⟩ := run_loads (m := m₃) (l := switchRegs) hnext₃ hnextLt
    (by decide) (by decide) (by decide)
  generalize run (switchRegs.map fun p => .ld p.1 .a1 p.2) (h₃, m₃) = s at hloaded hcsr hpriv hm
  obtain ⟨h₄, m₄⟩ := s
  obtain rfl : m₄ = m₃ := hm
  change h₄.csr = h₃.csr at hcsr
  change h₄.priv = h₃.priv at hpriv
  refine ⟨?_, fun p hp => ?_, ?_, fun p hp => hloaded _ (mem_switchRegs hp), ?_, ?_⟩
  · rw [← hm₃]
    exact hchanged.trans (changedIn_contextStore _ _ _ _)
  · obtain ⟨ht0, hfield⟩ := keptRegs_ne hp
    rw [← hm₃, contextLoad_contextStore, if_neg hfield, hsaved p hp, Hart.setReg_reg, if_neg ht0]
  · rw [← hm₃, contextLoad_contextStore, if_pos rfl]
  · simp [hcsr, ← hh₃]
  · simp [hpriv, ← hh₃]

end RiscvKernel
