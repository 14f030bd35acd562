import RiscvKernel.Exec.Load

/-!
# Bounds of an accepted image

What the checks of `validate_exec_image` say about the places at which it and `task_exec` read
`app_elf` and at which `task_exec` writes the pages it allocates.

* `phdrByte_lt`, `Copies.source`, `Copies.target`: the program headers and the copy loop.
* `exists_turns`: the loop over the pages of a segment.
* `SameBytes.validateExecImage`, `loadImage_congr`: neither the verdict nor the new address space
  depends on anything past the end of `app_elf`.
-/

namespace RiscvKernel

open ByteMemory

variable {img img' : AppImage} {ph : Elf64Phdr} {page : Word}

/-- `page` after `k` turns of the loop of `task_exec` over the pages of a segment, as `uint64_t`
arithmetic has it. -/
def Elf64Phdr.pageAt (ph : Elf64Phdr) : ℕ → Word
  | 0 => ph.startPage
  | k + 1 => ph.pageAt k + 4096#64

/-- The index in `app_elf` of byte `b` of program header `i`. -/
def phdrByte (img : AppImage) (i b : ℕ) : ℕ := img.ehdr.ePhoff.toNat + sizeofPhdr * i + b

/-- `src_offset + b` of `task_exec`. -/
def srcByte (ph : Elf64Phdr) (page : Word) (b : ℕ) : Word :=
  ph.pOffset + (copyStart ph page - ph.pVaddr) + BitVec.ofNat 64 b

/-- `(copy_start & 0xFFF) + b` of `task_exec`. -/
def dstByte (ph : Elf64Phdr) (page : Word) (b : ℕ) : ℕ := (copyStart ph page &&& 0xFFF#64).toNat + b

/-- The turn `b` of the copy loop for a page of a segment is made. -/
def Copies (ph : Elf64Phdr) (page : Word) (b : ℕ) : Prop :=
  copyStart ph page < copyEnd ph page ∧ b < (copyEnd ph page - copyStart ph page).toNat

/-- The loop over the pages of a segment stays in bounds. -/
structure SegmentInBounds (ph : Elf64Phdr) : Prop where
  /-- The loop over the pages ends, and `page + PAGE_SIZE` does not wrap before. -/
  turns : ∃ k ≤ (ph.endPage.toNat - ph.startPage.toNat) / 4096, ¬ ph.pageAt k < ph.endPage ∧
    (∀ j < k, ph.pageAt j < ph.endPage ∧ (ph.pageAt j).toNat + 4096 < 2 ^ 64) ∧
    ph.pages = (List.range k).map ph.pageAt
  /-- `p_vaddr + p_filesz` does not wrap. -/
  fileEnd : ph.pVaddr.toNat + ph.pFilesz.toNat < 2 ^ 64

/-! ### The loop over the pages -/

theorem pageAt_toNat {k : ℕ} (h : ph.startPage.toNat + 4096 * k < 2 ^ 64) :
    (ph.pageAt k).toNat = ph.startPage.toNat + 4096 * k := by
  induction k with
  | zero => rfl
  | succ k ih =>
    rw [Elf64Phdr.pageAt, BitVec.toNat_add, ih (by omega)]
    simp only [BitVec.toNat_ofNat]
    omega

/-- The loop visits the pages of the segment and then ends. -/
theorem exists_turns (ph : Elf64Phdr) :
    ∃ k ≤ (ph.endPage.toNat - ph.startPage.toNat) / 4096, ¬ ph.pageAt k < ph.endPage ∧
      (∀ j < k, ph.pageAt j < ph.endPage ∧ (ph.pageAt j).toNat + 4096 < 2 ^ 64) ∧
      ph.pages = (List.range k).map ph.pageAt := by
  have hstart := startPage_toNat ph
  have hend := endPage_toNat ph
  have hlt := ph.endPage.isLt
  have hlt' := ph.startPage.isLt
  -- the two ends are pages, so the turns fill the range exactly
  set k := (ph.endPage.toNat - ph.startPage.toNat) / 4096 with hk
  refine ⟨k, le_rfl, ?_, fun j hj => ?_, ?_⟩
  · rw [BitVec.lt_def, pageAt_toNat (by omega)]
    omega
  · rw [BitVec.lt_def, pageAt_toNat (by omega)]
    omega
  · rw [Elf64Phdr.pages, show (ph.endPage.toNat - ph.startPage.toNat + 4095) / 4096 = k by omega]
    refine List.map_congr_left fun j hj => ?_
    rw [List.mem_range] at hj
    apply BitVec.eq_of_toNat_eq
    rw [pageAt_toNat (by omega), BitVec.toNat_ofNat]
    omega

/-! ### The copy loop -/

/-- A segment that is accepted does not wrap, in memory or in the file. -/
theorem SegmentOk.noWraps {len : BitVec 32} (h : SegmentOk len ph) :
    ph.pVaddr.toNat + ph.pMemsz.toNat < 2 ^ 64 ∧ ph.pFilesz.toNat ≤ ph.pMemsz.toNat ∧
      ph.pOffset.toNat + ph.pFilesz.toNat ≤ len.toNat := by
  have hfile := h.file_le
  have hnoWrap := le_add_iff.mp h.file_noWrap
  have hlen : (len.setWidth 64).toNat = len.toNat := by
    rw [BitVec.toNat_setWidth]
    exact Nat.mod_eq_of_lt (len.isLt.trans (by decide))
  rw [BitVec.le_def, hlen, BitVec.toNat_add] at hfile
  exact ⟨le_add_iff.mp h.noWrap, h.filesz_le, by omega⟩

theorem page_lt (hpage : page ∈ ph.pages) : page.toNat % 4096 = 0 ∧ page.toNat + 4096 < 2 ^ 64 := by
  have hlt := ph.endPage.isLt
  have hend := endPage_toNat ph
  have hmem := mem_pages.mp hpage
  omega

/-- Both ends of the copied range are inside the file part of the segment. -/
theorem Copies.source {len : BitVec 32} {b : ℕ} (hb : Copies ph page b) (h : SegmentOk len ph) :
    (srcByte ph page b).toNat < len.toNat := by
  obtain ⟨hcopy, hb⟩ := hb
  obtain ⟨hmem, hsize, hfile⟩ := h.noWraps
  have hfileEnd : (ph.pVaddr + ph.pFilesz).toNat = ph.pVaddr.toNat + ph.pFilesz.toNat := by
    rw [BitVec.toNat_add]
    omega
  have hstop : (copyEnd ph page).toNat ≤ ph.pVaddr.toNat + ph.pFilesz.toNat := by
    rw [← hfileEnd, copyEnd]
    split_ifs with hpage
    · exact Nat.le_of_lt hpage
    · exact le_rfl
  have hstart : ph.pVaddr ≤ copyStart ph page := by
    rw [copyStart]
    split_ifs with hgt
    · exact BitVec.le_of_lt hgt
    · exact BitVec.le_refl _
  rw [BitVec.toNat_sub_of_le (BitVec.le_of_lt hcopy)] at hb
  rw [srcByte, BitVec.toNat_add, BitVec.toNat_add, BitVec.toNat_sub_of_le hstart,
    BitVec.toNat_ofNat]
  rw [BitVec.le_def] at hstart
  have := len.isLt
  omega

theorem Copies.target {b : ℕ} (hb : Copies ph page b) (hpage : page ∈ ph.pages) :
    dstByte ph page b < 4096 := by
  obtain ⟨hal, hlt⟩ := page_lt hpage
  have hin := copy_inside hal hlt hb.1
  have := hb.2
  rw [dstByte]
  omega

/-! ### The whole image -/

theorem phdrByte_lt (h : TableOk img) {i b : ℕ} (hi : i < img.ehdr.ePhnum.toNat)
    (hb : b < sizeofPhdr) : phdrByte img i b < img.appElfLen.toNat := by
  have htable := tableOk_iff.mp h
  rw [sizeofPhdr] at hb htable
  rw [phdrByte, sizeofPhdr]
  omega

/-! ### What is past the end of the image -/

/-- Two images with the same bytes, as far as `app_elf` goes. -/
structure SameBytes (img img' : AppImage) : Prop where
  len : img'.appElfLen = img.appElfLen
  bytes : ∀ a < img.appElfLen.toNat, img'.appElf a = img.appElf a

theorem SameBytes.field (h : SameBytes img img') {w off : ℕ}
    (hoff : off + w / 8 ≤ img.appElfLen.toNat) : img'.field w off = img.field w off := by
  rw [AppImage.field, AppImage.field, leNat_congr fun i hi => h.bytes (off + i) (by omega)]

/-- The fields of the ELF header that the kernel reads. -/
theorem SameBytes.ehdr (h : SameBytes img img') (hlen : sizeofEhdr ≤ img.appElfLen.toNat) :
    img'.ehdr.eEntry = img.ehdr.eEntry ∧ img'.ehdr.ePhoff = img.ehdr.ePhoff ∧
      img'.ehdr.ePhentsize = img.ehdr.ePhentsize ∧ img'.ehdr.ePhnum = img.ehdr.ePhnum := by
  rw [sizeofEhdr] at hlen
  refine ⟨h.field ?_, h.field ?_, h.field ?_, h.field ?_⟩ <;> omega

theorem SameBytes.phdr (h : SameBytes img img') (hlen : sizeofEhdr ≤ img.appElfLen.toNat)
    (htable : TableOk img) {i : ℕ} (hi : i < img.ehdr.ePhnum.toNat) :
    img'.phdr i = img.phdr i := by
  have hlast := phdrByte_lt htable hi (b := 55) (by decide)
  rw [phdrByte, sizeofPhdr] at hlast
  rw [AppImage.phdr, AppImage.phdr]
  rw [(h.ehdr hlen).2.1, sizeofPhdr, h.field, h.field, h.field, h.field, h.field, h.field,
    h.field]
  all_goals omega

/-- The checks of one header look at the table and the entry point. -/
theorem SameBytes.phdrOk (h : SameBytes img img') (hlen : sizeofEhdr ≤ img.appElfLen.toNat)
    (htable : TableOk img) {i : ℕ} (hi : i < img.ehdr.ePhnum.toNat) (hok : PhdrOk img i) :
    PhdrOk img' i := by
  intro hload
  rw [h.phdr hlen htable hi] at hload ⊢
  obtain ⟨hsegment, hagainst⟩ := hok hload
  rw [h.len, (h.ehdr hlen).2.2.2]
  refine ⟨hsegment, fun j hij hj => ?_⟩
  rw [h.phdr hlen htable hj]
  exact hagainst j hij hj

/-- An image with the bytes of an accepted one is accepted. -/
theorem SameBytes.validateExecImage (h : SameBytes img img')
    (hok : validateExecImage img = .ok ()) :
    RiscvKernel.validateExecImage img' = RiscvKernel.validateExecImage img := by
  obtain ⟨hlen, hsize, htable, hphdr, i, hi, hentry⟩ := validateExecImage_eq_ok_iff.mp hok
  obtain ⟨heEntry, hePhoff, hePhentsize, hePhnum⟩ := h.ehdr hlen
  rw [hok, validateExecImage_eq_ok_iff, TableOk, h.len, heEntry, hePhoff, hePhentsize, hePhnum]
  refine ⟨hlen, hsize, htable, fun j hj => h.phdrOk hlen htable hj (hphdr j hj), i, hi, ?_⟩
  rwa [h.phdr hlen htable hi]

/-- A page of an accepted segment is filled from the bytes of the image. -/
theorem SameBytes.fillPage (h : SameBytes img img') (hok : SegmentOk img.appElfLen ph) (phys : ℕ)
    (m : Mem) : fillPage img' ph page phys m = fillPage img ph page phys m := by
  rw [RiscvKernel.fillPage, RiscvKernel.fillPage]
  split_ifs with hcopy
  · ext a : 1
    rw [storeLoop_apply fun _ _ _ _ => rfl, storeLoop_apply fun _ _ _ _ => rfl]
    split_ifs with ha
    · rw [h.bytes]
      exact Copies.source ⟨hcopy, by omega⟩ hok
    · rfl
  · rfl

/-- Loops with the same turns. -/
theorem foldlM_congr_mem {σ : Type*} {f g : σ → ℕ → Option σ} {l : List ℕ} {s : σ}
    (h : ∀ i ∈ l, ∀ s, f s i = g s i) : l.foldlM f s = l.foldlM g s := by
  induction l generalizing s with
  | nil => rfl
  | cons i l ih =>
    rw [List.foldlM_cons, List.foldlM_cons, h i List.mem_cons_self]
    congr 1
    funext t
    exact ih fun j hj => h j (List.mem_cons_of_mem _ hj)

/-- The new address space of an accepted image is built from the bytes of the image alone. -/
theorem loadImage_congr (h : SameBytes img img') (hok : validateExecImage img = .ok ())
    (s : Phys) : loadImage img' s = loadImage img s := by
  obtain ⟨hlen, -, htable, -⟩ := validateExecImage_eq_ok_iff.mp hok
  have hsegment : ∀ i < img.ehdr.ePhnum.toNat, ∀ pgd s,
      loadSegment img' pgd s i = loadSegment img pgd s i := by
    intro i hi pgd s
    rw [loadSegment, loadSegment, h.phdr hlen htable hi]
    by_cases hload : (img.phdr i).IsLoad
    · have hpage : loadPage img' (img.phdr i) pgd = loadPage img (img.phdr i) pgd := by
        funext s p
        simp only [loadPage, h.fillPage ((accepted_of_ok hok).segment i hi hload)]
      rw [hpage]
    · simp [hload]
  have hloop : ∀ pgd s, (List.range img.ehdr.ePhnum.toNat).foldlM (loadSegment img' pgd) s
      = (List.range img.ehdr.ePhnum.toNat).foldlM (loadSegment img pgd) s := by
    intro pgd s
    exact foldlM_congr_mem fun i hi s => hsegment i (List.mem_range.mp hi) pgd s
  rw [loadImage, loadImage, (h.ehdr hlen).2.2.2]
  simp only [hloop]

end RiscvKernel
