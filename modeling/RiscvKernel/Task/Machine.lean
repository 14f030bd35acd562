import RiscvKernel.Exec.Load
import RiscvKernel.Task.Sched
import RiscvKernel.Trap.Frame

/-!
# Tasks

The functions of `kernel/task.c`, and `task_exec` of `kernel/exec.c`, over the state of the
machine. Contexts, kernel stacks and page tables are bytes of physical memory; the other
variables of the kernel are fields of `Machine`. What is printed on the console is left out.

A function returns `none` where the kernel loops forever. One that may call `switch_to` returns
`Handled`: it comes back, or it has called `switch_to` and comes back when that does.
-/

namespace RiscvKernel

open ByteMemory Riscv

/-- The registers, the physical memory with the free list, and the variables of the kernel. -/
structure Machine (n : ℕ) where
  hart : Hart
  phys : Phys
  /-- `root_page_table`. -/
  rootPageTable : ℕ
  /-- `current_task` and `task_states`. -/
  sched : Sched n
  /-- `task_user_stacks`. -/
  taskUserStacks : Fin n → Word

variable {n : ℕ}

namespace Machine

/-- Physical memory. -/
def mem (s : Machine n) : Mem := s.phys.mem

/-- The same machine with another memory. -/
def withMem (s : Machine n) (m : Mem) : Machine n := { s with phys := { s.phys with mem := m } }

/-- `task_states[id] = state`. -/
def setState (s : Machine n) (id : Fin n) (state : TaskState) : Machine n :=
  { s with sched := { s.sched with taskStates := Function.update s.sched.taskStates id state } }

/-- `task_user_stacks[id] = pa`. -/
def setUserStack (s : Machine n) (id : Fin n) (pa : Word) : Machine n :=
  { s with taskUserStacks := Function.update s.taskUserStacks id pa }

variable (s : Machine n) (m : Mem) (id : Fin n) (state : TaskState) (pa : Word)

@[simp] theorem withMem_mem : (s.withMem m).mem = m := rfl
@[simp] theorem withMem_hart : (s.withMem m).hart = s.hart := rfl
@[simp] theorem withMem_rootPageTable : (s.withMem m).rootPageTable = s.rootPageTable := rfl
@[simp] theorem withMem_sched : (s.withMem m).sched = s.sched := rfl
@[simp] theorem withMem_taskUserStacks : (s.withMem m).taskUserStacks = s.taskUserStacks := rfl
@[simp] theorem setState_phys : (s.setState id state).phys = s.phys := rfl
@[simp] theorem setState_mem : (s.setState id state).mem = s.mem := rfl
@[simp] theorem setState_hart : (s.setState id state).hart = s.hart := rfl
@[simp] theorem setState_rootPageTable :
    (s.setState id state).rootPageTable = s.rootPageTable := rfl
@[simp] theorem setState_currentTask :
    (s.setState id state).sched.currentTask = s.sched.currentTask := rfl
@[simp] theorem setState_taskStates :
    (s.setState id state).sched.taskStates = Function.update s.sched.taskStates id state := rfl
@[simp] theorem setState_taskUserStacks :
    (s.setState id state).taskUserStacks = s.taskUserStacks := rfl
@[simp] theorem setUserStack_phys : (s.setUserStack id pa).phys = s.phys := rfl
@[simp] theorem setUserStack_mem : (s.setUserStack id pa).mem = s.mem := rfl
@[simp] theorem setUserStack_hart : (s.setUserStack id pa).hart = s.hart := rfl
@[simp] theorem setUserStack_rootPageTable :
    (s.setUserStack id pa).rootPageTable = s.rootPageTable := rfl
@[simp] theorem setUserStack_sched : (s.setUserStack id pa).sched = s.sched := rfl
@[simp] theorem setUserStack_taskUserStacks :
    (s.setUserStack id pa).taskUserStacks = Function.update s.taskUserStacks id pa := rfl

end Machine

/-- How a handler goes on: it returns `value` to `trap_vector`; or it has called
`switch_to(&tasks[prev], &tasks[current_task])`, and will return `after` once that has returned, or
will never return if `after` is `none`. -/
inductive Handled (n : ℕ)
  | returned (value : Word) (s : Machine n)
  | switching (prev : Fin n) (after : Option Word) (s : Machine n)

variable (L : Layout n)

/-! ### Contexts and page tables -/

/-- `task_page_table`. -/
def taskPageTable (m : Mem) (id : Fin n) : ℕ := mmuSatpToPgd (contextLoad m (L.context id) .satp)

/-- `bind_task_frame`. -/
def bindTaskFrame (id : Fin n) (tf : ℕ) (m : Mem) : Mem :=
  contextStore (contextStore m (L.context id) .ra L.trapReturn) (L.context id) .sp
    (BitVec.ofNat 64 tf)

/-- `bind_task_page_table`. -/
def bindTaskPageTable (id : Fin n) (pgd : ℕ) (m : Mem) : Mem :=
  contextStore m (L.context id) .satp (mmuMakeSatp pgd)

/-- `init_user_frame`. -/
def initUserFrame (id : Fin n) (entry : Word) (m : Mem) : Mem :=
  let tf := L.taskTrapFrame id
  let m := trapframeClear tf m
  let m := tfStore m tf .epc entry
  let m := tfStore m tf .userSp userStackTop
  bindTaskFrame L id tf m

/-! ### Creating a task -/

/-- `task_init`. -/
def taskInit (id : Fin n) (func : Word) (s : Machine n) : Option (Machine n) :=
  (allocPage s.phys).bind fun (pgd, phys) =>
  (allocPage phys).bind fun (stackPa, phys) =>
  (initUserAddressSpace L pgd stackPa { phys with mem := initUserFrame L id func phys.mem }).bind
    fun phys =>
  let s : Machine n := { s with phys := { phys with mem := bindTaskPageTable L id pgd phys.mem } }
  some ((s.setUserStack id (BitVec.ofNat 64 stackPa)).setState id .ready)

/-! ### Switching -/

/-- `task_yield`, called where the handler returns `after` once it has come back: `switch_task` if
another task was picked. -/
def taskYield (after : Option Word) (s : Machine n) : Option (Handled n) :=
  (yieldDecision s.sched).bind fun sched =>
    if sched.currentTask ≠ s.sched.currentTask then
      some (.switching s.sched.currentTask after { s with sched := sched })
    else after.map fun value => .returned value s

/-- `task_exit`. It never returns. -/
def taskExit (s : Machine n) : Option (Handled n) :=
  let cur := s.sched.currentTask
  let s := { s with
    phys := freeUserPageTable L.kernelEnd s.rootPageTable (taskPageTable L s.mem cur) s.phys }
  taskYield none ((s.setUserStack cur 0).setState cur .dead)

/-- `task_sleep`. -/
def taskSleep (after : Option Word) (s : Machine n) : Option (Handled n) :=
  taskYield after (s.setState s.sched.currentTask .sleeping)

/-- `task_wakeup`. -/
def taskWakeup (id : Fin n) (s : Machine n) : Machine n := s.setState id .ready

/-! ### Fork -/

/-- `alloc_task_slot`; `none` stands for `-1`. -/
def allocTaskSlot (states : Fin n → TaskState) : Option (Fin n) :=
  (List.finRange n).find? fun id => states id = .dead

/-- The end of `task_fork`, when the child's page table `childPgd` is there and the entry of its
stack page is at `stackPte`. -/
def finishFork (childId : Fin n) (childPgd stackPte parentTf : ℕ) (epc : Word) (s : Machine n) :
    Machine n :=
  let childTf := L.taskTrapFrame childId
  let m := trapframeCopy childTf parentTf s.mem
  let m := contextCopy (L.context childId) (L.context s.sched.currentTask) m
  let m := bindTaskFrame L childId childTf m
  let m := bindTaskPageTable L childId childPgd m
  let m := tfStore m childTf .epc (epc + 4#64)
  let m := tfStore m childTf .a0 0#64
  ((s.withMem m).setUserStack childId (pteToPa (loadWord m stackPte))).setState childId .ready

/-- `task_fork`; `none` stands for the result `-1`. -/
def taskFork (parentTf : ℕ) (epc : Word) (s : Machine n) : Option (Option (Fin n) × Machine n) :=
  match allocTaskSlot s.sched.taskStates with
  | none => some (none, s)
  | some childId =>
    (copyUserPageTable s.rootPageTable (taskPageTable L s.mem s.sched.currentTask) s.phys).bind
      fun (childPgd, phys) =>
    (walkPte childPgd userStackPageVa false phys).bind fun (stackPte, phys) =>
    let s := { s with phys := phys }
    if stackPte = 0 ∨ ¬ loadWord s.mem stackPte &&& pteV ≠ 0 then some (none, s)
    else some (some childId, finishFork L childId childPgd stackPte parentTf epc s)

/-! ### Exec -/

/-- The image starts with the magic bytes of an ELF file. -/
def AppImage.HasMagic (img : AppImage) : Prop :=
  img.ehdr.eIdent 0 = 0x7f ∧ img.ehdr.eIdent 1 = 0x45 ∧ img.ehdr.eIdent 2 = 0x4c ∧
    img.ehdr.eIdent 3 = 0x46

instance (img : AppImage) : Decidable img.HasMagic :=
  inferInstanceAs (Decidable (_ ∧ _ ∧ _ ∧ _))

/-- The end of `task_exec`, when the image is loaded under `newPgd`. -/
def finishExec (entry : Word) (oldPgd newPgd tf : ℕ) (s : Machine n) : Machine n :=
  let cur := s.sched.currentTask
  let m := trapframeClear tf s.mem
  let m := tfStore m tf .epc entry
  let m := tfStore m tf .userSp userStackTop
  let m := bindTaskPageTable L cur newPgd m
  let s := s.withMem m
  { s with
    hart := s.hart.setCsr .satp (contextLoad m (L.context cur) .satp)
    phys := freeUserPageTable L.kernelEnd s.rootPageTable oldPgd s.phys }

/-- `task_exec`. -/
def taskExec (img : AppImage) (epc : Word) (tf : ℕ) (s : Machine n) : Option (Word × Machine n) :=
  let oldPgd := taskPageTable L s.mem s.sched.currentTask
  if ¬ img.HasMagic then some (epc + 4#64, s)
  else
    match validateExecImage img with
    | .error _ => some (epc + 4#64, s)
    | .ok _ =>
      (loadImage img s.phys).bind fun (newPgd, phys) =>
        some (img.ehdr.eEntry,
          finishExec L img.ehdr.eEntry oldPgd newPgd tf { s with phys := phys })

end RiscvKernel
