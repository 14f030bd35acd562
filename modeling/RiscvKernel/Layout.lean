import Mathlib.Data.Multiset.Dedup
import Mathlib.Data.Multiset.Range
import RiscvKernel.Memory.Page

/-!
# Where the kernel image puts things

The addresses that the linker script `kernel/os.ld` and the compiler decide, for a kernel with
`n` task slots (`MAX_TASKS`), with what the linker script guarantees about them.
-/

namespace RiscvKernel

open ByteMemory

/-- `text_start`, `BASE_ADDRESS` of the linker script. -/
def textStart : ℕ := 0x80000000

/-- `sizeof(struct context)`. -/
def sizeofContext : ℕ := 15 * 8

/-- `sizeof(struct trapframe)`. -/
def sizeofTrapframe : ℕ := 32 * 8

/-- The addresses of a linked kernel image. -/
structure Layout (n : ℕ) where
  /-- `text_end`, which is also `rodata_start`. -/
  textEnd : ℕ
  /-- `rodata_end`. -/
  rodataEnd : ℕ
  /-- `kernel_end`. -/
  kernelEnd : ℕ
  /-- `tasks`, an array of `n` contexts. -/
  tasks : ℕ
  /-- `task_kernel_stacks`, an array of `n` pages. -/
  taskKernelStacks : ℕ
  /-- The address of `trap_vector`. -/
  trapVector : Word
  /-- The address of `trap_return`. -/
  trapReturn : Word
  /-- The address `switch_to` returns to in `switch_task`. -/
  switchReturn : Word
  /-- The address of `task_shell`. -/
  taskShell : Word
  textEnd_aligned : PageAligned textEnd
  rodataEnd_aligned : PageAligned rodataEnd
  kernelEnd_aligned : PageAligned kernelEnd
  text_le : textStart ≤ textEnd
  rodata_le : textEnd ≤ rodataEnd
  kernelEnd_le : kernelEnd ≤ ramEnd
  tasks_ge : rodataEnd ≤ tasks
  tasks_le : tasks + sizeofContext * n ≤ kernelEnd
  stacks_ge : rodataEnd ≤ taskKernelStacks
  stacks_le : taskKernelStacks + 4096 * n ≤ kernelEnd
  disjoint : tasks + sizeofContext * n ≤ taskKernelStacks ∨
    taskKernelStacks + 4096 * n ≤ tasks
  /-- The two places a context can make `switch_to` return to are different. -/
  returns_ne : switchReturn ≠ trapReturn

namespace Layout

variable {n : ℕ} (L : Layout n) (id : Fin n)

/-- `&tasks[id]`. -/
def context : ℕ := L.tasks + sizeofContext * id

/-- `&task_kernel_stacks[id][0]`. -/
def kernelStack : ℕ := L.taskKernelStacks + 4096 * id

/-- `task_trap_frame(id)`, the last bytes of the slot's kernel stack. -/
def taskTrapFrame : ℕ := L.kernelStack id + (4096 - sizeofTrapframe)

/-- The end of the slot's kernel stack. -/
def kernelStackEnd : ℕ := L.kernelStack id + 4096

/-- The pages the allocator manages, from the end of the kernel image to the end of RAM. -/
def managed : Multiset ℕ :=
  (Multiset.range ((ramEnd - L.kernelEnd) / 4096)).map fun i => L.kernelEnd + 4096 * i

/-- The pages below the end of the kernel image. -/
def image : Multiset ℕ := (Multiset.range (L.kernelEnd / 4096)).map fun i => 4096 * i

variable {L id} {id' : Fin n} {a p : ℕ}

theorem mem_image : p ∈ L.image ↔ PageAligned p ∧ p < L.kernelEnd := by
  have hk := L.kernelEnd_aligned
  rw [PageAligned] at hk ⊢
  rw [image, Multiset.mem_map]
  constructor
  · rintro ⟨i, hi, rfl⟩
    rw [Multiset.mem_range] at hi
    omega
  · rintro ⟨hal, hlt⟩
    refine ⟨p / 4096, ?_, by omega⟩
    rw [Multiset.mem_range]
    omega

theorem mem_managed : p ∈ L.managed ↔ PageAligned p ∧ L.kernelEnd ≤ p ∧ p < ramEnd := by
  have hk := L.kernelEnd_aligned
  rw [PageAligned] at hk ⊢
  rw [managed, Multiset.mem_map]
  constructor
  · rintro ⟨i, hi, rfl⟩
    rw [Multiset.mem_range] at hi
    omega
  · rintro ⟨hal, hge, hlt⟩
    have : ramEnd % 4096 = 0 := rfl
    refine ⟨(p - L.kernelEnd) / 4096, ?_, by omega⟩
    rw [Multiset.mem_range]
    omega

theorem notMem_managed_of_image (hp : p ∈ L.image) : p ∉ L.managed := by
  rw [mem_managed]
  have := (mem_image.mp hp).2
  omega

/-- A change below the end of the kernel image is a change of its pages. -/
theorem eqOff_image {A : Set ℕ} {m m' : Mem} (h : ChangedIn A m m')
    (hA : ∀ a ∈ A, a < L.kernelEnd) :
    EqOff L.image m m' := by
  apply h.eqOff
  intro a ha
  rw [mem_image]
  refine ⟨pageAligned_pageOf a, ?_⟩
  have := hA a ha
  have := pageOf_add_mod a
  omega

theorem nodup_managed (L : Layout n) : L.managed.Nodup := by
  apply Multiset.Nodup.map _ (Multiset.nodup_range _)
  intro i j hij
  have : L.kernelEnd + 4096 * i = L.kernelEnd + 4096 * j := hij
  omega

theorem textStart_lt_kernelEnd (L : Layout n) : textStart ≤ L.kernelEnd :=
  L.text_le.trans (L.rodata_le.trans (L.tasks_ge.trans ((Nat.le_add_right _ _).trans L.tasks_le)))

theorem rodataEnd_le_kernelEnd (L : Layout n) : L.rodataEnd ≤ L.kernelEnd :=
  L.tasks_ge.trans ((Nat.le_add_right _ _).trans L.tasks_le)

theorem rodataEnd_le (L : Layout n) : L.rodataEnd ≤ ramEnd :=
  L.rodataEnd_le_kernelEnd.trans L.kernelEnd_le

/-- Managed pages are pages a page-table entry can name. -/
theorem isPage_of_mem_managed (hp : p ∈ L.managed) : IsPage p := by
  obtain ⟨hal, hge, hlt⟩ := mem_managed.mp hp
  have hpos := L.textStart_lt_kernelEnd
  have htext : textStart = 0x80000000 := rfl
  have hram : ramEnd = 0x88000000 := rfl
  exact ⟨hal, by omega, by omega⟩

/-! ### Contexts and kernel stacks -/

/-- The addresses of a slot's context. -/
def contextRange (L : Layout n) (id : Fin n) : Set ℕ :=
  Set.Ico (L.context id) (L.context id + sizeofContext)

/-- The addresses of a slot's kernel stack, its trapframe included. -/
def stackRange (L : Layout n) (id : Fin n) : Set ℕ :=
  Set.Ico (L.kernelStack id) (L.kernelStackEnd id)

theorem context_bounds (L : Layout n) (id : Fin n) :
    L.rodataEnd ≤ L.context id ∧ L.context id + sizeofContext ≤ L.kernelEnd ∧
      L.tasks ≤ L.context id ∧ L.context id + sizeofContext ≤ L.tasks + sizeofContext * n := by
  have hid := id.isLt
  have hge := L.tasks_ge
  have hle := L.tasks_le
  rw [context, sizeofContext] at *
  omega

theorem stack_bounds (L : Layout n) (id : Fin n) :
    L.rodataEnd ≤ L.kernelStack id ∧ L.kernelStackEnd id ≤ L.kernelEnd ∧
      L.taskKernelStacks ≤ L.kernelStack id ∧
      L.kernelStackEnd id ≤ L.taskKernelStacks + 4096 * n := by
  have hid := id.isLt
  have hge := L.stacks_ge
  have hle := L.stacks_le
  rw [kernelStackEnd, kernelStack]
  omega

theorem kernelStackEnd_eq (L : Layout n) (id : Fin n) :
    L.kernelStackEnd id = L.taskTrapFrame id + sizeofTrapframe := by
  rw [kernelStackEnd, taskTrapFrame, sizeofTrapframe]

theorem taskTrapFrame_le (L : Layout n) (id : Fin n) :
    L.kernelStack id ≤ L.taskTrapFrame id ∧ L.taskTrapFrame id + sizeofTrapframe ≤ ramEnd := by
  have h := L.stack_bounds id
  have hk := L.kernelEnd_le
  rw [← kernelStackEnd_eq]
  refine ⟨Nat.le_add_right _ _, h.2.1.trans hk⟩

/-- The kernel's own data lies above its read-only part and below the managed pages. -/
theorem mem_contextRange_bounds (ha : a ∈ L.contextRange id) :
    L.rodataEnd ≤ a ∧ a < L.kernelEnd := by
  have h := L.context_bounds id
  rw [contextRange, Set.mem_Ico] at ha
  omega

theorem mem_stackRange_bounds (ha : a ∈ L.stackRange id) : L.rodataEnd ≤ a ∧ a < L.kernelEnd := by
  have h := L.stack_bounds id
  rw [stackRange, Set.mem_Ico] at ha
  omega

/-- Different slots have different contexts. -/
theorem contextRange_disjoint (hne : id ≠ id') (ha : a ∈ L.contextRange id) :
    a ∉ L.contextRange id' := by
  have hval : id.val ≠ id'.val := fun h => hne (Fin.ext h)
  rw [contextRange, Set.mem_Ico, context, sizeofContext] at *
  omega

/-- Different slots have different kernel stacks. -/
theorem stackRange_disjoint (hne : id ≠ id') (ha : a ∈ L.stackRange id) :
    a ∉ L.stackRange id' := by
  have hval : id.val ≠ id'.val := fun h => hne (Fin.ext h)
  rw [stackRange, Set.mem_Ico, kernelStackEnd, kernelStack] at *
  omega

/-- No context overlaps a kernel stack. -/
theorem contextRange_not_stack (ha : a ∈ L.contextRange id) : a ∉ L.stackRange id' := by
  have h := L.context_bounds id
  have h' := L.stack_bounds id'
  have hd := L.disjoint
  rw [contextRange, Set.mem_Ico] at ha
  rw [stackRange, Set.mem_Ico]
  omega

end Layout

/-- A kernel image with two task slots. -/
def twoSlots : Layout 2 where
  textEnd := 0x80004000
  rodataEnd := 0x80005000
  kernelEnd := 0x80010000
  tasks := 0x80005000
  taskKernelStacks := 0x80006000
  trapVector := 0x80000100
  trapReturn := 0x800001A0
  switchReturn := 0x80000800
  taskShell := 0x80002000
  textEnd_aligned := by decide
  rodataEnd_aligned := by decide
  kernelEnd_aligned := by decide
  text_le := by decide
  rodata_le := by decide
  kernelEnd_le := by decide
  tasks_ge := by decide
  tasks_le := by decide
  stacks_ge := by decide
  stacks_le := by decide
  disjoint := by decide
  returns_ne := by decide

end RiscvKernel
