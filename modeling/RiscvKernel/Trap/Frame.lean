import RiscvKernel.Layout
import RiscvKernel.Lib.Riscv

/-!
# Trapframes and contexts

The two structures that C and assembly share, of `kernel/trapframe.h` and `kernel/context.h`. C
finds a field by its place in the structure, assembly by an offset macro; `tfOff_eq` and
`contextOff_eq` say that they agree.
-/

namespace RiscvKernel

open ByteMemory Riscv

/-- The fields of `struct trapframe`, in the order of the structure. -/
inductive TfField
  | epc | ra | userSp | gp | tp | t0 | t1 | t2 | s0 | s1 | a0 | a1 | a2 | a3 | a4 | a5 | a6 | a7
  | s2 | s3 | s4 | s5 | s6 | s7 | s8 | s9 | s10 | s11 | t3 | t4 | t5 | t6
  deriving DecidableEq, Repr

/-- The offset of a field in the C structure: every field is a doubleword. -/
def TfField.offset (f : TfField) : ℕ := 8 * f.ctorIdx

/-- The macros `TF_EPC_OFF`, `TF_RA_OFF`, …. -/
def tfOff : TfField → ℕ
  | .epc => 0 * 8
  | .ra => 1 * 8
  | .userSp => 2 * 8
  | .gp => 3 * 8
  | .tp => 4 * 8
  | .t0 => 5 * 8
  | .t1 => 6 * 8
  | .t2 => 7 * 8
  | .s0 => 8 * 8
  | .s1 => 9 * 8
  | .a0 => 10 * 8
  | .a1 => 11 * 8
  | .a2 => 12 * 8
  | .a3 => 13 * 8
  | .a4 => 14 * 8
  | .a5 => 15 * 8
  | .a6 => 16 * 8
  | .a7 => 17 * 8
  | .s2 => 18 * 8
  | .s3 => 19 * 8
  | .s4 => 20 * 8
  | .s5 => 21 * 8
  | .s6 => 22 * 8
  | .s7 => 23 * 8
  | .s8 => 24 * 8
  | .s9 => 25 * 8
  | .s10 => 26 * 8
  | .s11 => 27 * 8
  | .t3 => 28 * 8
  | .t4 => 29 * 8
  | .t5 => 30 * 8
  | .t6 => 31 * 8

/-- The fields of `struct context`, in the order of the structure. -/
inductive ContextField
  | ra | sp | s0 | s1 | s2 | s3 | s4 | s5 | s6 | s7 | s8 | s9 | s10 | s11 | satp
  deriving DecidableEq, Repr

/-- The offset of a field in the C structure. -/
def ContextField.offset (f : ContextField) : ℕ := 8 * f.ctorIdx

/-- The macros `CONTEXT_RA_OFF`, `CONTEXT_SP_OFF`, …. -/
def contextOff : ContextField → ℕ
  | .ra => 0 * 8
  | .sp => 1 * 8
  | .s0 => 2 * 8
  | .s1 => 3 * 8
  | .s2 => 4 * 8
  | .s3 => 5 * 8
  | .s4 => 6 * 8
  | .s5 => 7 * 8
  | .s6 => 8 * 8
  | .s7 => 9 * 8
  | .s8 => 10 * 8
  | .s9 => 11 * 8
  | .s10 => 12 * 8
  | .s11 => 13 * 8
  | .satp => 14 * 8

/-- Assembly and C find the fields of a trapframe at the same place. -/
theorem tfOff_eq (f : TfField) : tfOff f = f.offset := by
  cases f <;> rfl

/-- Assembly and C find the fields of a context at the same place. -/
theorem contextOff_eq (f : ContextField) : contextOff f = f.offset := by
  cases f <;> rfl

theorem TfField.offset_lt (f : TfField) : f.offset + 8 ≤ sizeofTrapframe := by
  cases f <;> decide

theorem ContextField.offset_lt (f : ContextField) : f.offset + 8 ≤ sizeofContext := by
  cases f <;> decide

theorem TfField.offset_inj {f g : TfField} (h : f.offset = g.offset) : f = g := by
  have hidx : f.ctorIdx = g.ctorIdx := by
    rw [TfField.offset, TfField.offset] at h
    omega
  rw [← TfField.ofNat_ctorIdx f, hidx, TfField.ofNat_ctorIdx]

/-! ### Access from C -/

/-- `tf->f`. -/
def tfLoad (m : Mem) (tf : ℕ) (f : TfField) : Word := loadWord m (tf + f.offset)

/-- `tf->f = v`. -/
def tfStore (m : Mem) (tf : ℕ) (f : TfField) (v : Word) : Mem := storeWord m (tf + f.offset) v

/-- `trapframe_clear`. -/
def trapframeClear (tf : ℕ) (m : Mem) : Mem :=
  storeWords (fun _ _ => 0) tf (sizeofTrapframe / 8) m

/-- `trapframe_copy`. -/
def trapframeCopy (dst src : ℕ) (m : Mem) : Mem :=
  storeWords (fun m i => loadWord m (src + 8 * i)) dst (sizeofTrapframe / 8) m

/-- `ctx->f`. -/
def contextLoad (m : Mem) (ctx : ℕ) (f : ContextField) : Word := loadWord m (ctx + f.offset)

/-- `ctx->f = v`. -/
def contextStore (m : Mem) (ctx : ℕ) (f : ContextField) (v : Word) : Mem :=
  storeWord m (ctx + f.offset) v

/-- `context_copy`: one assignment for each field, in the order of the structure. -/
def contextCopy (dst src : ℕ) (m : Mem) : Mem :=
  storeWords (fun m i => loadWord m (src + 8 * i)) dst (sizeofContext / 8) m

variable {m m' : Mem} {tf dst src ctx : ℕ} {A : Set ℕ}

theorem changedIn_tfStore (m : Mem) (tf : ℕ) (f : TfField) (v : Word) :
    ChangedIn (Set.Ico tf (tf + sizeofTrapframe)) m (tfStore m tf f v) := by
  apply (changedIn_storeWord _ _ _).mono
  intro a ha
  have := f.offset_lt
  rw [Set.mem_Ico] at ha ⊢
  omega

theorem changedIn_contextStore (m : Mem) (ctx : ℕ) (f : ContextField) (v : Word) :
    ChangedIn (Set.Ico ctx (ctx + sizeofContext)) m (contextStore m ctx f v) := by
  apply (changedIn_storeWord _ _ _).mono
  intro a ha
  have := f.offset_lt
  rw [Set.mem_Ico] at ha ⊢
  omega

@[simp]
theorem tfLoad_tfStore (m : Mem) (tf : ℕ) (f g : TfField) (v : Word) :
    tfLoad (tfStore m tf f v) tf g = if g = f then v else tfLoad m tf g := by
  by_cases hfg : g = f
  · rw [hfg, if_pos rfl, tfLoad, tfStore, loadWord_storeWord]
  · rw [if_neg hfg]
    have hidx : f.ctorIdx ≠ g.ctorIdx := by
      intro h
      exact hfg (TfField.offset_inj (by rw [TfField.offset, TfField.offset, h]))
    exact loadWord_storeWord_of_ne m tf v hidx

theorem contextLoad_contextStore (m : Mem) (ctx : ℕ) (f g : ContextField) (v : Word) :
    contextLoad (contextStore m ctx f v) ctx g = if g = f then v else contextLoad m ctx g := by
  by_cases hfg : g = f
  · rw [hfg, if_pos rfl, contextLoad, contextStore, loadWord_storeWord]
  · rw [if_neg hfg]
    have hidx : f.ctorIdx ≠ g.ctorIdx := by
      intro h
      apply hfg
      rw [← ContextField.ofNat_ctorIdx g, ← h, ContextField.ofNat_ctorIdx]
    exact loadWord_storeWord_of_ne m ctx v hidx

/-- Clearing a trapframe clears each field and nothing else. -/
theorem trapframeClear_spec (m : Mem) (tf : ℕ) :
    ChangedIn (Set.Ico tf (tf + sizeofTrapframe)) m (trapframeClear tf m) ∧
      ∀ f, tfLoad (trapframeClear tf m) tf f = 0#64 := by
  obtain ⟨hchanged, hwords⟩ := storeWords_spec (g := fun _ _ => 0) (d := tf) (m := m)
    (k := sizeofTrapframe / 8) fun _ _ _ _ => rfl
  refine ⟨hchanged, fun f => hwords f.ctorIdx ?_⟩
  cases f <;> decide

/-- Copying a trapframe to another place copies each field and writes nothing else. -/
theorem trapframeCopy_spec (m : Mem) (hne : dst + sizeofTrapframe ≤ src ∨
      src + sizeofTrapframe ≤ dst) :
    ChangedIn (Set.Ico dst (dst + sizeofTrapframe)) m (trapframeCopy dst src m) ∧
      ∀ f, tfLoad (trapframeCopy dst src m) dst f = tfLoad m src f := by
  have hsize : 8 * (sizeofTrapframe / 8) = sizeofTrapframe := rfl
  obtain ⟨hchanged, hwords⟩ := storeWords_spec (d := dst) (m := m) (k := sizeofTrapframe / 8)
    (g := fun m i => loadWord m (src + 8 * i)) (by
      intro m' hm' i hi
      apply hm'.loadWord_eq
      intro j hj
      rw [Set.mem_Ico, hsize]
      omega)
  refine ⟨hchanged, fun f => hwords f.ctorIdx ?_⟩
  cases f <;> decide

/-- Copying a context to another place copies each field and writes nothing else. -/
theorem contextCopy_spec (m : Mem) (hne : dst + sizeofContext ≤ src ∨ src + sizeofContext ≤ dst) :
    ChangedIn (Set.Ico dst (dst + sizeofContext)) m (contextCopy dst src m) ∧
      ∀ f, contextLoad (contextCopy dst src m) dst f = contextLoad m src f := by
  have hsize : 8 * (sizeofContext / 8) = sizeofContext := rfl
  obtain ⟨hchanged, hwords⟩ := storeWords_spec (d := dst) (m := m) (k := sizeofContext / 8)
    (g := fun m i => loadWord m (src + 8 * i)) (by
      intro m' hm' i hi
      apply hm'.loadWord_eq
      intro j hj
      rw [Set.mem_Ico, hsize]
      omega)
  refine ⟨hchanged, fun f => hwords f.ctorIdx ?_⟩
  cases f <;> decide

end RiscvKernel
