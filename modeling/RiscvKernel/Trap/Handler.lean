import RiscvKernel.Task.Machine

/-!
# The trap handler

`trap_handler` of `kernel/trap_handler.c`, with the system calls of its table. `ch` is the
character that `uart_getc` returns if it is called; the serial port and the timer are not part of
the state.
-/

namespace RiscvKernel

open ByteMemory Riscv

variable {n : ℕ} (L : Layout n) (img : AppImage)

/-! ### System calls -/

/-- `do_sys_write`: the character goes to the serial port. -/
def doSysWrite (_arg0 _arg1 epc : Word) (_tf : ℕ) (s : Machine n) : Option (Handled n) :=
  some (.returned (epc + 4#64) s)

/-- What the kernel makes of a character it has received: `'\r'` becomes `'\n'`. -/
def received (ch : Byte) : Byte := if ch = 0x0d then 0x0a else ch

/-- `do_sys_read`. The loop returns in its first turn, and `buf` is used as a physical address. -/
def doSysRead (ch : Byte) (arg0 arg1 epc : Word) (tf : ℕ) (s : Machine n) : Option (Handled n) :=
  let count := tfLoad s.mem tf .a2
  let buf := arg1
  if arg0.setWidth 32 ≠ 0 ∨ buf = 0 ∨ count = 0 then
    some (.returned (epc + 4#64) (s.withMem (tfStore s.mem tf .a0 (-1))))
  else
    let m := storeByte s.mem buf.toNat (received ch)
    some (.returned (epc + 4#64) (s.withMem (tfStore m tf .a0 1)))

/-- `do_sys_yield`. -/
def doSysYield (_arg0 _arg1 epc : Word) (_tf : ℕ) (s : Machine n) : Option (Handled n) :=
  taskYield (some (epc + 4#64)) s

/-- `do_sys_exit`. -/
def doSysExit (_arg0 _arg1 _epc : Word) (_tf : ℕ) (s : Machine n) : Option (Handled n) :=
  taskExit L s

/-- What `task_fork` returns, as `unsigned long`. -/
def forkResult (child : Option (Fin n)) : Word := child.elim (-1) fun id => BitVec.ofNat 64 id

/-- `do_sys_clone`. -/
def doSysClone (_arg0 _arg1 epc : Word) (tf : ℕ) (s : Machine n) : Option (Handled n) :=
  (taskFork L tf epc s).bind fun (child, s) =>
    some (.returned (epc + 4#64) (s.withMem (tfStore s.mem tf .a0 (forkResult child))))

/-- `do_sys_execve`. -/
def doSysExecve (_arg0 _arg1 epc : Word) (tf : ℕ) (s : Machine n) : Option (Handled n) :=
  (taskExec L img epc tf s).bind fun (entry, s) => some (.returned entry s)

/-- `MAX_SYSCALL_NUM`. -/
def maxSyscallNum : ℕ := 300

/-- The functions of `sys_call_table`, at `SYS_READ`, `SYS_WRITE`, `SYS_SCHED_YIELD`, `SYS_EXIT`,
`SYS_CLONE` and `SYS_EXECVE`. -/
inductive Syscall
  | read
  | write
  | schedYield
  | exit
  | clone
  | execve
  deriving DecidableEq, Repr

/-- `sys_call_table`. -/
def sysCallTable : ℕ → Option Syscall
  | 63 => some .read
  | 64 => some .write
  | 124 => some .schedYield
  | 93 => some .exit
  | 220 => some .clone
  | 221 => some .execve
  | _ => none

/-- The function in an entry of `sys_call_table`. -/
def Syscall.handler (ch : Byte) : Syscall → Word → Word → Word → ℕ → Machine n → Option (Handled n)
  | .read => doSysRead ch
  | .write => doSysWrite
  | .schedYield => doSysYield
  | .exit => doSysExit L
  | .clone => doSysClone L
  | .execve => doSysExecve L img

/-! ### The handler -/

/-- `is_interrupt`. -/
def isInterrupt (cause : Word) : Bool := cause &&& 0x8000000000000000#64 ≠ 0

/-- `exception_code`. -/
def exceptionCode (cause : Word) : Word := cause &&& 0x7FFFFFFFFFFFFFFF#64

/-- `trap_handler`. -/
def trapHandler (ch : Byte) (cause epc _tval arg0 arg1 sysNum : Word) (tf : ℕ) (s : Machine n) :
    Option (Handled n) :=
  if isInterrupt cause then
    if exceptionCode cause = 7 then taskYield (some epc) s
    else some (.returned epc s)
  else
    if exceptionCode cause = 8 ∨ exceptionCode cause = 11 then
      if sysNum.toNat < maxSyscallNum then
        match sysCallTable sysNum.toNat with
        | some call => call.handler L img ch arg0 arg1 epc tf s
        | none => some (.returned (epc + 4#64) s)
      else some (.returned (epc + 4#64) s)
    -- a page fault or another exception: the kernel stops
    else none

end RiscvKernel
