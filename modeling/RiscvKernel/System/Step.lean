import Mathlib.Logic.Relation
import RiscvKernel.Trap.Handler
import RiscvKernel.Trap.Vector

/-!
# The running system

The kernel and its user programs as a transition system. A user program computes, stores through
its page table, or traps. A trap runs `trap_vector`, the handler, and then either `trap_return` or
`switch_to`; after `switch_to` the task switched to goes on where its context says.

The C code between two pieces of assembly is known by its effect on the variables of the kernel
and by the calling convention: it gives back `sp` and the callee-saved registers, and uses the
kernel stack below the `sp` it was called with. While `switch_to` runs for other tasks, a C function
that has called it is remembered as `Suspended`. If control came back to it with other registers
or another stack than it was left with, nothing would be known about what follows.
-/

namespace RiscvKernel

open ByteMemory Riscv

variable {n : ℕ}

/-! ### States -/

/-- A call of `switch_to` that has not returned: the registers and the memory it was called with,
the `sp` with which `trap_vector` called `trap_handler`, and what `trap_handler` will return. -/
structure Suspended where
  reg : Reg → Word
  mem : Mem
  frame : ℕ
  after : Option Word

/-- A user program is running, or `switch_to` has just been left. -/
inductive Phase
  | user
  | resuming
  deriving DecidableEq, Repr

/-- A state of the system. -/
structure Config (n : ℕ) where
  machine : Machine n
  phase : Phase
  suspended : Fin n → Option Suspended

/-- The task on whose behalf the machine runs. -/
def Config.current (c : Config n) : Fin n := c.machine.sched.currentTask

/-- What the kernel does in a trap: `trap_handler`; or kernel code that puts the current task to
sleep, as `mutex_lock` does, or wakes a sleeping one, as `mutex_unlock` does, and goes on behind
the call that trapped. -/
inductive Service (n : ℕ)
  | trapHandler
  | sleep
  | wakeup (id : Fin n)

/-- What happens in a step. -/
inductive Event (n : ℕ)
  /-- Instructions of the user program that only change registers. -/
  | compute (reg : Reg → Word) (pc : Word)
  /-- A store of one byte by the user program. -/
  | store (va : Word) (b : Byte)
  /-- A trap from the user program. `ch` is the next character the serial port receives. -/
  | trap (service : Service n) (cause tval : Word) (ch : Byte)
  /-- The task that was switched to goes on. -/
  | resume

variable (L : Layout n) (img : AppImage)

/-! ### Pieces of a step -/

/-- The page table the hardware uses. -/
def Machine.pgd (s : Machine n) : ℕ := mmuSatpToPgd (s.hart.csr .satp)

/-- The trap, and `trap_vector` up to the call of `trap_handler`. -/
def entered (cause tval : Word) (s : Machine n) : Machine n :=
  let r := run trapEntry (s.hart.trap cause tval L.trapVector, s.mem)
  { s.withMem r.2 with hart := r.1 }

/-- What the kernel does when it has been entered. -/
def serve (service : Service n) (ch : Byte) (s : Machine n) : Option (Handled n) :=
  match service with
  | .trapHandler =>
    trapHandler L img ch (s.hart.reg .a0) (s.hart.reg .a1) (s.hart.reg .a2) (s.hart.reg .a3)
      (s.hart.reg .a4) (s.hart.reg .a5) (s.hart.reg .a6).toNat s
  | .sleep => taskSleep (some (s.hart.reg .a1 + 4#64)) s
  | .wakeup id =>
    if s.sched.taskStates id = .sleeping then
      some (.returned (s.hart.reg .a1 + 4#64) (taskWakeup id s))
    else none

/-- Where C code called with `sp = frame` keeps its local variables. -/
def callStack (frame : ℕ) : Set ℕ := Set.Ico (frame - (4096 - sizeofTrapframe)) frame

/-- A C function called with the registers `h` has returned `v`. -/
structure CReturned (h h' : Hart) (v : Word) : Prop where
  sp : h'.reg .sp = h.reg .sp
  a0 : h'.reg .a0 = v
  csr : h'.csr = h.csr
  priv : h'.priv = h.priv

/-- A C function called with the registers `h` calls `switch_to(&tasks[prev], &tasks[next])`. -/
structure CSwitching (h h' : Hart) (prev next : Fin n) : Prop where
  sp : (h'.reg .sp).toNat ≤ (h.reg .sp).toNat ∧
    (h.reg .sp).toNat - (4096 - sizeofTrapframe) ≤ (h'.reg .sp).toNat
  ra : h'.reg .ra = L.switchReturn
  a0 : h'.reg .a0 = BitVec.ofNat 64 (L.context prev)
  a1 : h'.reg .a1 = BitVec.ofNat 64 (L.context next)
  csr : h'.csr = h.csr
  priv : h'.priv = h.priv

/-- Control is back in the C function that was left at `k`. -/
structure Suspended.Matches (k : Suspended) (h : Hart) (m : Mem) : Prop where
  reg : ∀ p ∈ keptRegs, h.reg p.1 = k.reg p.1
  stack : ∀ a, (k.reg .sp).toNat ≤ a → a < k.frame → m a = k.mem a

/-- The machine with the registers and the memory that assembly has left. -/
def Machine.after (s : Machine n) (r : Hart × Mem) : Machine n := { s.withMem r.2 with hart := r.1 }

/-- `trap_vector` after `trap_handler` has returned, and `trap_return`. -/
def leave (h : Hart) (m : Mem) : Hart × Mem := trapReturn (run trapExit (h, m))

/-! ### Steps -/

/-- One step of the system. -/
inductive Step : Config n → Event n → Config n → Prop
  | compute {c : Config n} (hphase : c.phase = .user) (reg : Reg → Word) (pc : Word) :
    Step c (.compute reg pc)
      { c with machine := { c.machine with hart := { c.machine.hart with reg := reg, pc := pc } } }
  | store {c : Config n} (hphase : c.phase = .user) {va e : Word} (b : Byte)
      (hentry : leafEntry c.machine.mem c.machine.pgd va = some e) (hwritable : UserWritable e) :
    Step c (.store va b)
      { c with machine := c.machine.withMem (storeByte c.machine.mem (physAddr e va) b) }
  /-- The handler returns. -/
  | returned {c : Config n} (hphase : c.phase = .user) {service : Service n} {cause tval : Word}
      {ch : Byte} {v : Word} {s : Machine n} {h : Hart} {m : Mem}
      (hserve : serve L img service ch (entered L cause tval c.machine) = some (.returned v s))
      (hreturn : CReturned s.hart h v)
      (hstack : ChangedIn (callStack (s.hart.reg .sp).toNat) s.mem m) :
    Step c (.trap service cause tval ch) { c with machine := s.after (leave h m) }
  /-- The handler calls `switch_to`. -/
  | switched {c : Config n} (hphase : c.phase = .user) {service : Service n} {cause tval : Word}
      {ch : Byte} {prev : Fin n} {after : Option Word} {s : Machine n} {h : Hart} {m : Mem}
      (hserve : serve L img service ch (entered L cause tval c.machine)
        = some (.switching prev after s))
      (hcall : CSwitching L s.hart h prev s.sched.currentTask)
      (hstack : ChangedIn (callStack (s.hart.reg .sp).toNat) s.mem m) :
    Step c (.trap service cause tval ch)
      { machine := s.after (run switchTo (h, m))
        phase := .resuming
        suspended := Function.update c.suspended prev
          (some ⟨h.reg, m, (s.hart.reg .sp).toNat, after⟩) }
  /-- `switch_to` returns to `trap_return`. -/
  | fresh {c : Config n} (hphase : c.phase = .resuming)
      (hra : c.machine.hart.reg .ra = L.trapReturn) :
    Step c .resume
      { c with
        machine := c.machine.after (trapReturn (c.machine.hart, c.machine.mem))
        phase := .user }
  /-- `switch_to` returns to the C function that called it, and this returns to `trap_vector`. -/
  | tail {c : Config n} (hphase : c.phase = .resuming) {k : Suspended} {v : Word} {h : Hart}
      {m : Mem} (hra : c.machine.hart.reg .ra = L.switchReturn)
      (hsuspended : c.suspended c.current = some k)
      (hmatches : k.Matches c.machine.hart c.machine.mem) (hafter : k.after = some v)
      (hsp : (h.reg .sp).toNat = k.frame) (ha0 : h.reg .a0 = v)
      (hcsr : h.csr = c.machine.hart.csr) (hpriv : h.priv = c.machine.hart.priv)
      (hstack : ChangedIn (callStack k.frame) c.machine.mem m) :
    Step c .resume { c with machine := c.machine.after (leave h m), phase := .user }
  /-- Control is somewhere else: anything may follow. -/
  | lost {c c' : Config n} (hphase : c.phase = .resuming)
      (hfresh : c.machine.hart.reg .ra ≠ L.trapReturn)
      (htail : ¬ (c.machine.hart.reg .ra = L.switchReturn ∧ ∃ k,
        c.suspended c.current = some k ∧ k.Matches c.machine.hart c.machine.mem)) :
    Step c .resume c'

/-! ### Boot -/

/-- `task_wrapper`: the first task runs. -/
def taskWrapper (s : Machine n) : Machine n :=
  let s := s.setState s.sched.currentTask .running
  let h := s.hart.setReg .sp (contextLoad s.mem (L.context s.sched.currentTask) .sp)
  s.after (trapReturn (h, s.mem))

/-- `os_main`, on a hart and a memory in any state. The tables of devices and of physical memory
protection are left out. -/
def osMain [NeZero n] (h : Hart) (m : Mem) : Option (Machine n) :=
  (pageInit L.kernelEnd m).bind fun phys =>
  (mmuInit phys).bind fun (root, phys) =>
  let s : Machine n :=
    { hart := h.setCsr .satp (mmuMakeSatp root)
      phys := phys
      rootPageTable := root
      sched := { currentTask := 0, taskStates := fun _ => .dead }
      taskUserStacks := fun _ => 0 }
  (taskInit L 0 L.taskShell s).bind fun s =>
  let firstSatp := contextLoad s.mem (L.context 0) .satp
  some (taskWrapper L { s with hart := s.hart.setCsr .satp firstSatp })

/-- The system has just been booted. -/
def Booted [NeZero n] (c : Config n) : Prop :=
  ∃ h m, osMain L h m = some c.machine ∧ c.phase = .user ∧ c.suspended = fun _ => none

/-! ### Runs -/

/-- A run of the system whose steps all satisfy `P`. -/
def Run (P : Config n → Event n → Prop) : Config n → Config n → Prop :=
  Relation.ReflTransGen fun c c' => ∃ e, P c e ∧ Step L img c e c'

/-- States reachable from boot by steps that satisfy `P`. -/
def Reachable [NeZero n] (P : Config n → Event n → Prop) (c : Config n) : Prop :=
  ∃ c₀, Booted L c₀ ∧ Run L img P c₀ c

end RiscvKernel
