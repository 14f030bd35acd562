import RiscvKernel.Lib.Memory

/-!
# RISC-V straight-line code

The register state of a 64-bit RISC-V hart and the instructions that entry, exit and context
switch code is made of: loads and stores of doublewords, moves, and accesses to control and
status registers. Traps into machine mode and the return from them are `Hart.trap` and
`Hart.mret`. Code is a list of instructions, executed in order; what it leaves in `pc` is up to
the jump that ends it and is not modelled here.

* `run_stores`: a run of stores of different registers to disjoint words of one block.
* `run_loads`: a run of loads of different registers from one block.
-/

namespace Riscv

open ByteMemory

/-- The general registers other than `x0`, by their names in the calling convention. -/
inductive Reg
  | ra | sp | gp | tp | t0 | t1 | t2 | s0 | s1 | a0 | a1 | a2 | a3 | a4 | a5 | a6 | a7
  | s2 | s3 | s4 | s5 | s6 | s7 | s8 | s9 | s10 | s11 | t3 | t4 | t5 | t6
  deriving DecidableEq, Repr

/-- The control and status registers used. -/
inductive Csr
  | mstatus | mepc | mcause | mtval | mscratch | satp
  deriving DecidableEq, Repr

/-- The privilege modes. -/
inductive Privilege
  | user | supervisor | machine
  deriving DecidableEq, Repr

/-- The registers of a hart. -/
@[ext]
structure Hart where
  reg : Reg → Word
  csr : Csr → Word
  pc : Word
  priv : Privilege

/-- The instructions of straight-line code. Offsets and immediates are written as the machine
adds them. -/
inductive Instr
  | ld (rd base : Reg) (off : ℕ)
  | sd (rs base : Reg) (off : ℕ)
  | addi (rd rs : Reg) (imm : Word)
  | li (rd : Reg) (imm : Word)
  | mv (rd rs : Reg)
  | csrr (rd : Reg) (csr : Csr)
  | csrw (csr : Csr) (rs : Reg)
  | csrs (csr : Csr) (rs : Reg)
  | csrc (csr : Csr) (rs : Reg)
  | csrrw (rd : Reg) (csr : Csr) (rs : Reg)
  | sfenceVma
  deriving DecidableEq, Repr

namespace Hart

/-- Write a general register. -/
def setReg (h : Hart) (r : Reg) (v : Word) : Hart :=
  { h with reg := fun r' => if r' = r then v else h.reg r' }

/-- Write a control and status register. -/
def setCsr (h : Hart) (c : Csr) (v : Word) : Hart :=
  { h with csr := fun c' => if c' = c then v else h.csr c' }

/-- The address of an access at an offset from a register. -/
def addr (h : Hart) (base : Reg) (off : ℕ) : ℕ := (h.reg base + BitVec.ofNat 64 off).toNat

variable (h : Hart) (r r' : Reg) (c c' : Csr) (v : Word)

@[simp] theorem setReg_reg : (h.setReg r v).reg r' = if r' = r then v else h.reg r' := rfl
@[simp] theorem setReg_csr : (h.setReg r v).csr = h.csr := rfl
@[simp] theorem setReg_pc : (h.setReg r v).pc = h.pc := rfl
@[simp] theorem setReg_priv : (h.setReg r v).priv = h.priv := rfl
@[simp] theorem setCsr_reg : (h.setCsr c v).reg = h.reg := rfl
@[simp] theorem setCsr_csr : (h.setCsr c v).csr c' = if c' = c then v else h.csr c' := rfl
@[simp] theorem setCsr_pc : (h.setCsr c v).pc = h.pc := rfl
@[simp] theorem setCsr_priv : (h.setCsr c v).priv = h.priv := rfl

@[simp]
theorem addr_setReg {r base : Reg} (hne : r ≠ base) (h : Hart) (v : Word) (off : ℕ) :
    (h.setReg r v).addr base off = h.addr base off := by
  rw [addr, setReg_reg, if_neg (Ne.symm hne), addr]

@[simp]
theorem addr_setCsr (h : Hart) (c : Csr) (v : Word) (base : Reg) (off : ℕ) :
    (h.setCsr c v).addr base off = h.addr base off := rfl

/-- An access below the end of the address space does not wrap around. -/
theorem addr_eq {h : Hart} {base : Reg} {off b : ℕ} (hb : (h.reg base).toNat = b)
    (hlt : b + off < 2 ^ 64) : h.addr base off = b + off := by
  rw [addr, BitVec.toNat_add, BitVec.toNat_ofNat, hb]
  omega

end Hart

/-- Execute one instruction. -/
def exec : Instr → Hart × Mem → Hart × Mem
  | .ld rd base off, (h, m) => (h.setReg rd (loadWord m (h.addr base off)), m)
  | .sd rs base off, (h, m) => (h, storeWord m (h.addr base off) (h.reg rs))
  | .addi rd rs imm, (h, m) => (h.setReg rd (h.reg rs + imm), m)
  | .li rd imm, (h, m) => (h.setReg rd imm, m)
  | .mv rd rs, (h, m) => (h.setReg rd (h.reg rs), m)
  | .csrr rd csr, (h, m) => (h.setReg rd (h.csr csr), m)
  | .csrw csr rs, (h, m) => (h.setCsr csr (h.reg rs), m)
  | .csrs csr rs, (h, m) => (h.setCsr csr (h.csr csr ||| h.reg rs), m)
  | .csrc csr rs, (h, m) => (h.setCsr csr (h.csr csr &&& ~~~ h.reg rs), m)
  -- both registers are read before either is written
  | .csrrw rd csr rs, (h, m) => ((h.setCsr csr (h.reg rs)).setReg rd (h.csr csr), m)
  | .sfenceVma, s => s

/-- Execute straight-line code. -/
def run (code : List Instr) (s : Hart × Mem) : Hart × Mem := code.foldl (fun s i => exec i s) s

@[simp]
theorem run_nil (s : Hart × Mem) : run [] s = s := rfl

@[simp]
theorem run_cons (i : Instr) (code : List Instr) (s : Hart × Mem) :
    run (i :: code) s = run code (exec i s) := rfl

theorem run_append (code code' : List Instr) (s : Hart × Mem) :
    run (code ++ code') s = run code' (run code s) :=
  List.foldl_append

/-! ### Traps -/

/-- Bits 12 and 11 of `mstatus`, the mode a trap came from. -/
def mpp (mstatus : Word) : Privilege :=
  if mstatus >>> 11 &&& 3#64 = 0#64 then .user
  else if mstatus >>> 11 &&& 3#64 = 1#64 then .supervisor
  else .machine

/-- The mode as `mstatus` stores it. -/
def mppBits : Privilege → Word
  | .user => 0#64
  | .supervisor => 1#64 <<< 11
  | .machine => 3#64 <<< 11

/-- A trap into machine mode: the state it came from is saved, interrupts are off, and
execution goes on at `mtvec`. -/
def Hart.trap (h : Hart) (cause tval mtvec : Word) : Hart :=
  let mstatus := h.csr .mstatus
  let mpie := if mstatus &&& (1#64 <<< 3) = 0#64 then 0#64 else 1#64 <<< 7
  let mstatus' := mstatus &&& ~~~ (3#64 <<< 11 ||| 1#64 <<< 7 ||| 1#64 <<< 3) ||| mppBits h.priv
    ||| mpie
  { (((h.setCsr .mepc h.pc).setCsr .mcause cause).setCsr .mtval tval).setCsr .mstatus mstatus' with
    pc := mtvec
    priv := .machine }

/-- `mret`: the mode and the program counter saved by the trap. -/
def Hart.mret (h : Hart) : Hart :=
  let mstatus := h.csr .mstatus
  let mie := if mstatus &&& (1#64 <<< 7) = 0#64 then 0#64 else 1#64 <<< 3
  let mstatus' := mstatus &&& ~~~ (3#64 <<< 11 ||| 1#64 <<< 3) ||| 1#64 <<< 7 ||| mie
  { h.setCsr .mstatus mstatus' with
    pc := h.csr .mepc
    priv := mpp mstatus }

/-! ### Runs of stores and of loads -/

variable {base : Reg} {l : List (Reg × ℕ)} {b size : ℕ} {h : Hart} {m : Mem}

/-- Stores of registers leave the registers alone and write inside their block only. -/
theorem run_stores_frame (hb : (h.reg base).toNat = b) (hsize : b + size < 2 ^ 64)
    (hin : ∀ p ∈ l, p.2 + 8 ≤ size) :
    (run (l.map fun p => .sd p.1 base p.2) (h, m)).1 = h ∧
      ChangedIn (Set.Ico b (b + size)) m (run (l.map fun p => .sd p.1 base p.2) (h, m)).2 := by
  induction l generalizing m with
  | nil => exact ⟨rfl, ChangedIn.refl _ _⟩
  | cons p l ih =>
    have hp := hin p List.mem_cons_self
    have htail := ih (m := storeWord m (b + p.2) (h.reg p.1))
      fun q hq => hin q (List.mem_cons_of_mem _ hq)
    rw [List.map_cons, run_cons, exec, Hart.addr_eq hb (by omega)]
    refine ⟨htail.1, ChangedIn.trans ?_ htail.2⟩
    apply (changedIn_storeWord m (b + p.2) _).mono
    intro a ha
    rw [Set.mem_Ico] at ha ⊢
    omega

/-- Stores of registers to disjoint words: each word holds its register. -/
theorem run_stores (hb : (h.reg base).toNat = b) (hsize : b + size < 2 ^ 64)
    (hin : ∀ p ∈ l, p.2 + 8 ≤ size)
    (hdisj : l.Pairwise fun p q => p.2 + 8 ≤ q.2 ∨ q.2 + 8 ≤ p.2) :
    ∀ p ∈ l, loadWord (run (l.map fun p => .sd p.1 base p.2) (h, m)).2 (b + p.2)
      = h.reg p.1 := by
  induction l generalizing m with
  | nil => simp
  | cons q l ih =>
    have hq := hin q List.mem_cons_self
    have hin' : ∀ p ∈ l, p.2 + 8 ≤ size := fun p hp => hin p (List.mem_cons_of_mem _ hp)
    rw [List.pairwise_cons] at hdisj
    rw [List.map_cons, run_cons, exec, Hart.addr_eq hb (by omega)]
    intro p hp
    rcases List.mem_cons.mp hp with rfl | hmem
    · -- the later stores do not touch the word
      suffices hkeep : ∀ l' : List (Reg × ℕ), (∀ q ∈ l', q ∈ l) → ∀ m : Mem,
          loadWord (run (l'.map fun p => .sd p.1 base p.2) (h, m)).2 (b + p.2)
            = loadWord m (b + p.2) by
        rw [hkeep l (fun _ hq => hq), loadWord_storeWord]
      intro l' hl'
      induction l' with
      | nil => exact fun _ => rfl
      | cons q l' ih' =>
        intro m
        have hql := hl' q List.mem_cons_self
        have hq' := hin' q hql
        rw [List.map_cons, run_cons, exec, Hart.addr_eq hb (by omega),
          ih' fun r hr => hl' r (List.mem_cons_of_mem _ hr)]
        apply loadWord_storeWord_of_disjoint
        have := hdisj.1 q hql
        omega
    · -- a word of the later stores
      exact ih hin' hdisj.2 p hmem

/-- Loads of different registers: each register holds its word, and nothing else changes. -/
theorem run_loads (hb : (h.reg base).toNat = b) (hsize : b + size < 2 ^ 64)
    (hin : ∀ p ∈ l, p.2 + 8 ≤ size) (hnd : (l.map Prod.fst).Nodup)
    (hbase : base ∉ l.map Prod.fst) :
    let s := run (l.map fun p => .ld p.1 base p.2) (h, m)
    (∀ p ∈ l, s.1.reg p.1 = loadWord m (b + p.2)) ∧
      (∀ r, r ∉ l.map Prod.fst → s.1.reg r = h.reg r) ∧
      s.1.csr = h.csr ∧ s.1.pc = h.pc ∧ s.1.priv = h.priv ∧ s.2 = m := by
  induction l generalizing h with
  | nil => simp
  | cons q l ih =>
    have hq := hin q List.mem_cons_self
    rw [List.map_cons, List.nodup_cons] at hnd
    rw [List.map_cons, List.mem_cons, not_or] at hbase
    set h' := h.setReg q.1 (loadWord m (b + q.2)) with hh'
    -- the base register is none of those that are loaded
    have hb' : (h'.reg base).toNat = b := by
      rw [hh', Hart.setReg_reg, if_neg hbase.1, hb]
    obtain ⟨hmem, hnot, hcsr, hpc, hpriv, hm⟩ := ih hb'
      (fun p hp => hin p (List.mem_cons_of_mem _ hp)) hnd.2 hbase.2
    rw [List.map_cons, run_cons, exec, Hart.addr_eq hb (by omega)]
    refine ⟨fun p hp => ?_, fun r hr => ?_, hcsr, hpc, hpriv, hm⟩
    · rcases List.mem_cons.mp hp with rfl | hmem'
      · -- the later loads go to other registers
        rw [hnot p.1 hnd.1, hh', Hart.setReg_reg, if_pos rfl]
      · exact hmem p hmem'
    · rw [List.map_cons, List.mem_cons, not_or] at hr
      rw [hnot r hr.2, hh', Hart.setReg_reg, if_neg hr.1]

end Riscv
