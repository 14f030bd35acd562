import RiscvKernel.Memory.UserSpace

/-!
# The embedded ELF image

The two header structures of `kernel/elf.h`, read from the bytes of `app_elf`, with the fields
`kernel/exec.c` looks at, and the checks of `validate_exec_image`. Arithmetic is that of
`uint64_t`.

`validateExecImage` returns the text the kernel prints when it refuses an image.
-/

namespace RiscvKernel

open ByteMemory

/-- `app_elf` and `app_elf_len`. What the kernel would read past the end of the array is part
of the value. -/
structure AppImage where
  /-- `app_elf`. -/
  appElf : ℕ → Byte
  /-- `app_elf_len`. -/
  appElfLen : BitVec 32

/-- `Elf64_Ehdr`. -/
structure Elf64Ehdr where
  eIdent : ℕ → Byte
  eEntry : Word
  ePhoff : Word
  ePhentsize : BitVec 16
  ePhnum : BitVec 16

/-- `Elf64_Phdr`. -/
structure Elf64Phdr where
  pType : BitVec 32
  pFlags : BitVec 32
  pOffset : Word
  pVaddr : Word
  pFilesz : Word
  pMemsz : Word
  pAlign : Word

/-- `sizeof(Elf64_Ehdr)`. -/
def sizeofEhdr : ℕ := 64

/-- `sizeof(Elf64_Phdr)`. -/
def sizeofPhdr : ℕ := 56

namespace AppImage

variable (img : AppImage)

/-- A little-endian field of `w` bits at an offset in the image. -/
def field (w off : ℕ) : BitVec w := BitVec.ofNat w (leNat img.appElf off (w / 8))

/-- `(Elf64_Ehdr *)app_elf`. -/
def ehdr : Elf64Ehdr where
  eIdent i := img.appElf i
  eEntry := img.field 64 24
  ePhoff := img.field 64 32
  ePhentsize := img.field 16 54
  ePhnum := img.field 16 56

/-- `((Elf64_Phdr *)(app_elf + ehdr->e_phoff))[i]`. -/
def phdr (i : ℕ) : Elf64Phdr :=
  let base := img.ehdr.ePhoff.toNat + sizeofPhdr * i
  { pType := img.field 32 base
    pFlags := img.field 32 (base + 4)
    pOffset := img.field 64 (base + 8)
    pVaddr := img.field 64 (base + 16)
    pFilesz := img.field 64 (base + 32)
    pMemsz := img.field 64 (base + 40)
    pAlign := img.field 64 (base + 48) }

end AppImage

/-! ### Validation -/

/-- `ranges_overlap`. -/
def rangesOverlap (startA endA startB endB : Word) : Bool := startA < endB && startB < endA

/-- `p_vaddr & ~(PAGE_SIZE - 1)`: `start_page` of the loader, `this_start` of the validator. -/
def Elf64Phdr.startPage (ph : Elf64Phdr) : Word := ph.pVaddr &&& ~~~ 0xFFF#64

/-- `(p_vaddr + p_memsz + PAGE_SIZE - 1) & ~(PAGE_SIZE - 1)`: `end_page` of the loader,
`this_end` of the validator. -/
def Elf64Phdr.endPage (ph : Elf64Phdr) : Word :=
  (ph.pVaddr + ph.pMemsz + 0xFFF#64) &&& ~~~ 0xFFF#64

/-- The header describes a loadable segment: `p_type == 1`. -/
def Elf64Phdr.IsLoad (ph : Elf64Phdr) : Prop := ph.pType = 1

instance (ph : Elf64Phdr) : Decidable ph.IsLoad := inferInstanceAs (Decidable (ph.pType = 1))

/-- The checks of `validate_exec_image` on one `PT_LOAD` header by itself. -/
def checkSegment (appElfLen : BitVec 32) (ph : Elf64Phdr) : Except String Unit :=
  if ph.pFilesz > ph.pMemsz then
    throw "\n[KERNEL] Exec failed: Segment file size exceeds memory size.\n"
  else
  let segFileEnd := ph.pOffset + ph.pFilesz
  if segFileEnd > appElfLen.setWidth 64 ∨ segFileEnd < ph.pOffset then
    throw "\n[KERNEL] Exec failed: Segment file range out of image.\n"
  else
  if ph.pAlign ≠ 0 ∧ (ph.pVaddr - ph.pOffset) &&& (ph.pAlign - 1#64) ≠ 0 then
    throw "\n[KERNEL] Exec failed: Segment alignment mismatch.\n"
  else
  let segStart := ph.pVaddr
  let segEnd := ph.pVaddr + ph.pMemsz
  if segEnd < segStart then
    throw "\n[KERNEL] Exec failed: Segment address overflow.\n"
  else
  if rangesOverlap segStart segEnd userStackGuardVa userStackTop ∨
      rangesOverlap segStart segEnd userRwPageVa (userRwPageVa + 4096#64) ∨
      rangesOverlap segStart segEnd userRoPageVa (userRoPageVa + 4096#64) then
    throw "\n[KERNEL] Exec failed: Segment overlaps reserved user space.\n"
  else pure ()

/-- The check of one `PT_LOAD` header against a later header. -/
def checkAgainst (ph other : Elf64Phdr) : Except String Unit :=
  if ¬ other.IsLoad then pure ()
  else if rangesOverlap ph.startPage ph.endPage other.startPage other.endPage then
    throw "\n[KERNEL] Exec failed: Loadable segments overlap.\n"
  else pure ()

/-- The body of the loop of `validate_exec_image` over the headers; it carries `entry_ok`. -/
def checkPhdr (img : AppImage) (entryOk : Bool) (i : ℕ) : Except String Bool :=
  let ph := img.phdr i
  if ¬ ph.IsLoad then pure entryOk
  else do
    checkSegment img.appElfLen ph
    (List.range' (i + 1) (img.ehdr.ePhnum.toNat - (i + 1))).forM fun j =>
      checkAgainst ph (img.phdr j)
    pure (entryOk ||
      (ph.pVaddr ≤ img.ehdr.eEntry && img.ehdr.eEntry < ph.pVaddr + ph.pMemsz))

/-- `validate_exec_image`. -/
def validateExecImage (img : AppImage) : Except String Unit :=
  if img.appElfLen.toNat < sizeofEhdr then
    throw "\n[KERNEL] Exec failed: ELF image too small.\n"
  else
  if img.ehdr.ePhentsize.toNat ≠ sizeofPhdr then
    throw "\n[KERNEL] Exec failed: Unexpected program header size.\n"
  else
  let phEnd := img.ehdr.ePhoff + img.ehdr.ePhnum.setWidth 64 * BitVec.ofNat 64 sizeofPhdr
  if phEnd > img.appElfLen.setWidth 64 ∨ phEnd < img.ehdr.ePhoff then
    throw "\n[KERNEL] Exec failed: Program header table out of range.\n"
  else do
    let entryOk ← (List.range img.ehdr.ePhnum.toNat).foldlM (checkPhdr img) false
    if entryOk then pure ()
    else throw "\n[KERNEL] Exec failed: Entry point is not inside a loadable segment.\n"

end RiscvKernel
