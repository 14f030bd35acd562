import RiscvKernel.Exec.Bounds
import RiscvKernel.Lib.Recorded

/-!
# What validating and loading an image accesses

`validate_exec_image` and the loops of `task_exec`, with a record of the bytes they read from
`app_elf`, of the offsets they write in the pages of a segment, and of the sums the loops depend
on. The loop over the pages of a segment is that of the source, over `uint64_t`, and is given only
the turns it should need.

* `load_in_bounds`: for an accepted image these functions do what `validateExecImage` and
  `loadImage` do, and everything they access is in bounds.
-/

namespace RiscvKernel

open ByteMemory Recorded

/-- What the two functions access. -/
inductive ImageAccess
  /-- A byte of the ELF header, by its index in `app_elf`. -/
  | ehdr (index : ℕ)
  /-- A byte of a program header, by its index in `app_elf`. -/
  | phdr (index : ℕ)
  /-- `app_elf[index]` in the copy loop. -/
  | source (index : ℕ)
  /-- `phys[offset]`. -/
  | write (offset : ℕ)
  /-- A sum of two `uint64_t`: `page + PAGE_SIZE` or `p_vaddr + p_filesz`. -/
  | sum (a b : Word)
  deriving DecidableEq

/-- Why loading an image does not end: `alloc_page` finds no page, or a loop over pages goes on
after its last turn. -/
inductive Stall
  | outOfMemory
  | outOfTurns
  deriving DecidableEq

/-! ### The accesses -/

section Accesses

variable {ε : Type} (img : AppImage)

/-- A field of `w` bits is read. -/
def AppImage.readField (kind : ℕ → ImageAccess) (w off : ℕ) :
    Recorded ImageAccess ε (BitVec w) where
  log := (List.range (w / 8)).map fun i => kind (off + i)
  result := .ok (img.field w off)

/-- `phdr[i].p_type`, with the program headers at `ePhoff`. -/
def AppImage.readType (ePhoff : Word) (i : ℕ) : Recorded ImageAccess ε (BitVec 32) :=
  img.readField .phdr 32 (ePhoff.toNat + sizeofPhdr * i)

/-- The fields of `phdr[i]`. The loader does not look at `p_align`, and the validator not at
`p_flags`. -/
def AppImage.readPhdr (ePhoff : Word) (i : ℕ) : Recorded ImageAccess ε Elf64Phdr := do
  let base := ePhoff.toNat + sizeofPhdr * i
  let pType ← img.readField .phdr 32 base
  let pFlags ← img.readField .phdr 32 (base + 4)
  let pOffset ← img.readField .phdr 64 (base + 8)
  let pVaddr ← img.readField .phdr 64 (base + 16)
  let pFilesz ← img.readField .phdr 64 (base + 32)
  let pMemsz ← img.readField .phdr 64 (base + 40)
  let pAlign ← img.readField .phdr 64 (base + 48)
  pure { pType, pFlags, pOffset, pVaddr, pFilesz, pMemsz, pAlign }

/-- `app_elf[index]`. -/
def AppImage.readSource (index : Word) : Recorded ImageAccess ε Byte where
  log := [.source index.toNat]
  result := .ok (img.appElf index.toNat)

/-- `phys[offset] = v`. -/
def writePage (phys offset : ℕ) (v : Byte) (m : Mem) : Recorded ImageAccess ε Mem where
  log := [.write offset]
  result := .ok (storeByte m (phys + offset) v)

/-- `a + b`. -/
def addWords (a b : Word) : Recorded ImageAccess ε Word where
  log := [.sum a b]
  result := .ok (a + b)

end Accesses

/-! ### `validate_exec_image` -/

section Validate

variable (img : AppImage)

/-- `checkAgainst`, with the reads of the later header. -/
def recordCheckAgainst (ePhoff : Word) (ph : Elf64Phdr) (j : ℕ) :
    Recorded ImageAccess String Unit := do
  let pType ← img.readType ePhoff j
  if pType ≠ 1 then pure ()
  else do
    let other ← img.readPhdr ePhoff j
    lift (checkAgainst ph other)

/-- `checkPhdr`, with its reads. -/
def recordCheckPhdr (ePhoff : Word) (ePhnum : BitVec 16) (entryOk : Bool) (i : ℕ) :
    Recorded ImageAccess String Bool := do
  let pType ← img.readType ePhoff i
  if pType ≠ 1 then pure entryOk
  else do
    let ph ← img.readPhdr ePhoff i
    lift (checkSegment img.appElfLen ph)
    (List.range' (i + 1) (ePhnum.toNat - (i + 1))).forM (recordCheckAgainst img ePhoff ph)
    let eEntry ← img.readField .ehdr 64 24
    pure (entryOk || (ph.pVaddr ≤ eEntry && eEntry < ph.pVaddr + ph.pMemsz))

/-- `validate_exec_image`, with its reads. -/
def recordValidateExecImage : Recorded ImageAccess String Unit :=
  if img.appElfLen.toNat < sizeofEhdr then
    lift (.error "\n[KERNEL] Exec failed: ELF image too small.\n")
  else do
    let ePhentsize ← img.readField .ehdr 16 54
    if ePhentsize.toNat ≠ sizeofPhdr then
      lift (.error "\n[KERNEL] Exec failed: Unexpected program header size.\n")
    else do
      let ePhoff ← img.readField .ehdr 64 32
      let ePhnum ← img.readField .ehdr 16 56
      let phEnd := ePhoff + ePhnum.setWidth 64 * BitVec.ofNat 64 sizeofPhdr
      if phEnd > img.appElfLen.setWidth 64 ∨ phEnd < ePhoff then
        lift (.error "\n[KERNEL] Exec failed: Program header table out of range.\n")
      else do
        let entryOk ← (List.range ePhnum.toNat).foldlM (recordCheckPhdr img ePhoff ePhnum) false
        if entryOk then pure ()
        else
          lift (.error "\n[KERNEL] Exec failed: Entry point is not inside a loadable segment.\n")

end Validate

/-! ### The loops of `task_exec` -/

section Load

variable (img : AppImage)

/-- `fillPage`, with its reads and writes. -/
def recordFillPage (ph : Elf64Phdr) (page : Word) (phys : ℕ) (m : Mem) :
    Recorded ImageAccess Stall Mem := do
  let copyStart := if page > ph.pVaddr then page else ph.pVaddr
  let pageEnd ← addWords page 4096#64
  let fileEnd ← addWords ph.pVaddr ph.pFilesz
  let copyEnd := if pageEnd < fileEnd then pageEnd else fileEnd
  let m ← (List.range 4096).foldlM (fun m b => writePage phys b 0 m) m
  if copyStart < copyEnd then
    let srcOffset := ph.pOffset + (copyStart - ph.pVaddr)
    (List.range (copyEnd - copyStart).toNat).foldlM (fun m b => do
      let c ← img.readSource (srcOffset + BitVec.ofNat 64 b)
      writePage phys ((copyStart &&& 0xFFF#64).toNat + b) c m) m
  else pure m

/-- `loadPage`, with its reads and writes. -/
def recordLoadPage (ph : Elf64Phdr) (newPgd : ℕ) (s : Phys) (page : Word) :
    Recorded ImageAccess Stall Phys := do
  let (phys, s) ← lift (orFail .outOfMemory (allocPage s))
  let m ← recordFillPage img ph page phys s.mem
  lift (orFail .outOfMemory
    (mapPage newPgd page (BitVec.ofNat 64 phys) (loadSegmentFlags ph) { s with mem := m }))

/-- `for (uint64_t page = start_page; page < end_page; page += PAGE_SIZE)`, for at most so many
turns. -/
def recordPages (body : Phys → Word → Recorded ImageAccess Stall Phys) (endPage : Word) :
    ℕ → Word → Phys → Recorded ImageAccess Stall Phys
  | 0, page, s => if page < endPage then lift (.error .outOfTurns) else pure s
  | turns + 1, page, s =>
    if page < endPage then do
      let s ← body s page
      let page ← addWords page 4096#64
      recordPages body endPage turns page s
    else pure s

/-- `loadSegment`, with its reads and writes. -/
def recordLoadSegment (ePhoff : Word) (newPgd : ℕ) (s : Phys) (i : ℕ) :
    Recorded ImageAccess Stall Phys := do
  let pType ← img.readType ePhoff i
  if pType ≠ 1 then pure s
  else do
    let ph ← img.readPhdr ePhoff i
    let turns := (ph.endPage.toNat - ph.startPage.toNat) / 4096
    recordPages (recordLoadPage img ph newPgd) ph.endPage turns ph.startPage s

/-- `loadImage`, with its reads and writes. -/
def recordLoadImage (s : Phys) : Recorded ImageAccess Stall (ℕ × Phys) := do
  let (newPgd, s) ← lift (orFail .outOfMemory (allocPage s))
  let (newStackPa, s) ← lift (orFail .outOfMemory (allocPage s))
  let s ← lift (orFail .outOfMemory (mapUserStack newPgd newStackPa s))
  let ePhoff ← img.readField .ehdr 64 32
  let ePhnum ← img.readField .ehdr 16 56
  let s ← (List.range ePhnum.toNat).foldlM (recordLoadSegment img ePhoff newPgd) s
  pure (newPgd, s)

end Load

/-! ### Bounds -/

section Bounds

/-- The access is in bounds. -/
def ImageAccess.Ok (img : AppImage) : ImageAccess → Prop
  | .ehdr index => index < img.appElfLen.toNat
  | .phdr index => img.ehdr.ePhoff.toNat ≤ index ∧ index < img.appElfLen.toNat
  | .source index => index < img.appElfLen.toNat
  | .write offset => offset < 4096
  | .sum a b => a.toNat + b.toNat < 2 ^ 64

variable {img : AppImage} {ph : Elf64Phdr} {page : Word} {i : ℕ} {ε : Type}

theorem runs_readField {kind : ℕ → ImageAccess} {w off : ℕ}
    (h : ∀ b < w / 8, (kind (off + b)).Ok img) :
    Runs (ImageAccess.Ok img) (img.readField kind w off : Recorded ImageAccess ε _)
      (.ok (img.field w off)) where
  result := rfl
  within a ha := by
    obtain ⟨b, hb, rfl⟩ := List.mem_map.mp ha
    exact h b (List.mem_range.mp hb)

/-- A field of the ELF header of an image that is long enough. -/
theorem runs_readEhdr {w off : ℕ} {v : BitVec w} (hlen : sizeofEhdr ≤ img.appElfLen.toNat)
    (hoff : off + w / 8 ≤ 64) (hv : img.field w off = v) :
    Runs (ImageAccess.Ok img) (img.readField .ehdr w off : Recorded ImageAccess ε _) (.ok v) := by
  subst hv
  refine runs_readField fun b hb => ?_
  rw [sizeofEhdr] at hlen
  change off + b < img.appElfLen.toNat
  omega

/-- A field of a program header inside the table. -/
theorem runs_readPhdrField (htable : TableOk img) (hi : i < img.ehdr.ePhnum.toNat) (w off : ℕ)
    (hoff : off + w / 8 ≤ 56) :
    Runs (ImageAccess.Ok img)
      (img.readField .phdr w (img.ehdr.ePhoff.toNat + sizeofPhdr * i + off) :
        Recorded ImageAccess ε _)
      (.ok (img.field w (img.ehdr.ePhoff.toNat + sizeofPhdr * i + off))) := by
  refine runs_readField fun b hb => ⟨by omega, ?_⟩
  have hbyte := phdrByte_lt htable hi (b := off + b) (by rw [sizeofPhdr]; omega)
  rwa [phdrByte, ← Nat.add_assoc] at hbyte

theorem runs_readType (htable : TableOk img) (hi : i < img.ehdr.ePhnum.toNat) :
    Runs (ImageAccess.Ok img) (img.readType img.ehdr.ePhoff i : Recorded ImageAccess ε _)
      (.ok (img.phdr i).pType) := by
  have hfield := runs_readPhdrField (ε := ε) htable hi 32 0 (by decide)
  rw [Nat.add_zero] at hfield
  exact hfield

theorem runs_readPhdr (htable : TableOk img) (hi : i < img.ehdr.ePhnum.toNat) :
    Runs (ImageAccess.Ok img) (img.readPhdr img.ehdr.ePhoff i : Recorded ImageAccess ε _)
      (.ok (img.phdr i)) := by
  refine (runs_readType htable hi).andThen ?_
  refine (runs_readPhdrField htable hi 32 4 (by decide)).andThen ?_
  refine (runs_readPhdrField htable hi 64 8 (by decide)).andThen ?_
  refine (runs_readPhdrField htable hi 64 16 (by decide)).andThen ?_
  refine (runs_readPhdrField htable hi 64 32 (by decide)).andThen ?_
  refine (runs_readPhdrField htable hi 64 40 (by decide)).andThen ?_
  refine (runs_readPhdrField htable hi 64 48 (by decide)).andThen ?_
  exact Runs.pure _

/-! ### `validate_exec_image` -/

theorem runs_checkAgainst (htable : TableOk img) (hi : i < img.ehdr.ePhnum.toNat) :
    Runs (ImageAccess.Ok img) (recordCheckAgainst img img.ehdr.ePhoff ph i)
      (checkAgainst ph (img.phdr i)) := by
  refine (runs_readType htable hi).andThen ?_
  by_cases hload : (img.phdr i).pType = 1
  · rw [if_neg (not_not.mpr hload)]
    exact (runs_readPhdr htable hi).andThen (Runs.lift _)
  · rw [if_pos hload, checkAgainst, if_pos (show ¬ (img.phdr i).IsLoad from hload)]
    exact Runs.pure _

theorem runs_checkPhdr (hlen : sizeofEhdr ≤ img.appElfLen.toNat) (htable : TableOk img)
    (hi : i < img.ehdr.ePhnum.toNat) (entryOk : Bool) :
    Runs (ImageAccess.Ok img) (recordCheckPhdr img img.ehdr.ePhoff img.ehdr.ePhnum entryOk i)
      (checkPhdr img entryOk i) := by
  refine (runs_readType htable hi).andThen ?_
  rw [checkPhdr]
  by_cases hload : (img.phdr i).pType = 1
  · rw [if_neg (not_not.mpr hload), if_neg (not_not.mpr (show (img.phdr i).IsLoad from hload))]
    refine (runs_readPhdr htable hi).andThen ?_
    refine (Runs.lift _).bind fun _ _ => ?_
    refine (Runs.forM fun j hj => ?_).bind fun _ _ => ?_
    · have hmem := List.mem_range'_1.mp hj
      exact runs_checkAgainst htable (by omega)
    · exact (runs_readEhdr hlen (by decide) rfl).andThen (Runs.pure _)
  · rw [if_pos hload, if_pos (show ¬ (img.phdr i).IsLoad from hload)]
    exact Runs.pure _

/-- Whatever the image, the validator reads inside it: each check comes before the reads it is
for. -/
theorem runs_validateExecImage (img : AppImage) :
    Runs (ImageAccess.Ok img) (recordValidateExecImage img) (validateExecImage img) := by
  rw [recordValidateExecImage, validateExecImage]
  by_cases hlen : img.appElfLen.toNat < sizeofEhdr
  · -- nothing is read of an image that is too small
    rw [if_pos hlen, if_pos hlen]
    exact Runs.lift _
  rw [if_neg hlen, if_neg hlen]
  have hread := Nat.le_of_not_lt hlen
  refine (runs_readEhdr (v := img.ehdr.ePhentsize) hread (by decide) rfl).andThen ?_
  by_cases hsize : img.ehdr.ePhentsize.toNat ≠ sizeofPhdr
  · rw [if_pos hsize, if_pos hsize]
    exact Runs.lift _
  rw [if_neg hsize, if_neg hsize]
  refine (runs_readEhdr (v := img.ehdr.ePhoff) hread (by decide) rfl).andThen ?_
  refine (runs_readEhdr (v := img.ehdr.ePhnum) hread (by decide) rfl).andThen ?_
  dsimp only
  split_ifs with hout
  · exact Runs.lift _
  · -- the table is in range, and only now its entries are read
    rw [not_or, gt_iff_lt, BitVec.not_lt, BitVec.not_lt] at hout
    refine (Runs.foldlM (fun i hi entryOk => ?_) false).bind fun entryOk _ => ?_
    · exact runs_checkPhdr hread hout (List.mem_range.mp hi) entryOk
    · cases entryOk
      · exact Runs.lift _
      · exact Runs.pure _

/-! ### The loops of `task_exec` -/

theorem runs_addWords {a b : Word} (h : a.toNat + b.toNat < 2 ^ 64) :
    Runs (ImageAccess.Ok img) (addWords a b : Recorded ImageAccess ε _) (.ok (a + b)) :=
  ⟨rfl, by simpa [addWords, ImageAccess.Ok] using h⟩

theorem runs_writePage {offset : ℕ} (h : offset < 4096) (phys : ℕ) (v : Byte) (m : Mem) :
    Runs (ImageAccess.Ok img) (writePage phys offset v m : Recorded ImageAccess ε _)
      (.ok (storeByte m (phys + offset) v)) :=
  ⟨rfl, by simpa [writePage, ImageAccess.Ok] using h⟩

theorem runs_readSource {index : Word} (h : index.toNat < img.appElfLen.toNat) :
    Runs (ImageAccess.Ok img) (img.readSource index : Recorded ImageAccess ε _)
      (.ok (img.appElf index.toNat)) :=
  ⟨rfl, by simpa [AppImage.readSource, ImageAccess.Ok] using h⟩

/-- `phys[offset + b] = …` for each `b` below `k`, inside the page. -/
theorem runs_storeLoop {read : ℕ → Recorded ImageAccess Stall Byte} {v : ℕ → Byte}
    {offset k : ℕ} (hread : ∀ b < k, Runs (ImageAccess.Ok img) (read b) (.ok (v b)))
    (hin : ∀ b < k, offset + b < 4096) (phys : ℕ) (m : Mem) :
    Runs (ImageAccess.Ok img)
      ((List.range k).foldlM (fun m b => do
        let c ← read b
        writePage phys (offset + b) c m) m)
      (.ok (storeLoop (fun _ b => v b) (phys + offset) k m)) := by
  rw [storeLoop]
  refine Runs.foldl (fun b hb m => ?_) m
  rw [List.mem_range] at hb
  rw [Nat.add_assoc]
  exact (hread b hb).andThen (runs_writePage (hin b hb) phys (v b) m)

/-- `phys[b] = 0` for each `b` below `k`, inside the page. -/
theorem runs_clearLoop {k : ℕ} (hk : k ≤ 4096) (phys : ℕ) (m : Mem) :
    Runs (ImageAccess.Ok img)
      ((List.range k).foldlM (fun m b => writePage phys b 0 m) m : Recorded ImageAccess Stall Mem)
      (.ok (storeLoop (fun _ _ => 0) phys k m)) := by
  rw [storeLoop]
  refine Runs.foldl (fun b hb m => ?_) m
  exact runs_writePage ((List.mem_range.mp hb).trans_le hk) phys 0 m

theorem runs_clearPage (phys : ℕ) (m : Mem) :
    Runs (ImageAccess.Ok img)
      ((List.range 4096).foldlM (fun m b => writePage phys b 0 m) m :
        Recorded ImageAccess Stall Mem) (.ok (clearPage m phys)) := by
  unfold clearPage
  exact runs_clearLoop (Nat.le_refl 4096) phys m

/-- A page of an accepted segment is cleared and filled. -/
theorem runs_fillPage (hok : SegmentOk img.appElfLen ph) (hpage : page ∈ ph.pages) (phys : ℕ)
    (m : Mem) : Runs (ImageAccess.Ok img) (recordFillPage img ph page phys m)
      (.ok (fillPage img ph page phys m)) := by
  obtain ⟨hmem, hsize, -⟩ := hok.noWraps
  refine (runs_addWords (page_lt hpage).2).andThen ?_
  refine (runs_addWords (by omega)).andThen ?_
  refine (runs_clearPage phys m).andThen ?_
  change Runs _ (if copyStart ph page < copyEnd ph page then _ else _) _
  rw [fillPage]
  by_cases hcopy : copyStart ph page < copyEnd ph page
  · -- the copy loop reads from the file part of the segment and writes into the page
    rw [if_pos hcopy, if_pos hcopy]
    have hcopies {b : ℕ} (hb : b < (copyEnd ph page - copyStart ph page).toNat) :
        Copies ph page b := ⟨hcopy, hb⟩
    exact runs_storeLoop (fun b hb => runs_readSource ((hcopies hb).source hok))
      (fun b hb => (hcopies hb).target hpage) phys _
  · rw [if_neg hcopy, if_neg hcopy]
    exact Runs.pure _

theorem runs_loadPage (hok : SegmentOk img.appElfLen ph) (hpage : page ∈ ph.pages) (newPgd : ℕ)
    (s : Phys) : Runs (ImageAccess.Ok img) (recordLoadPage img ph newPgd s page)
      (orFail .outOfMemory (loadPage img ph newPgd s page.toNat)) := by
  rw [loadPage, orFail_bind]
  refine (Runs.lift _).bind fun r _ => ?_
  obtain ⟨phys, t⟩ := r
  rw [BitVec.ofNat_toNat, BitVec.setWidth_eq]
  exact (runs_fillPage hok hpage phys t.mem).andThen (Runs.lift _)

/-- The loop over pages ends within its turns, and `page + PAGE_SIZE` does not wrap. -/
theorem runs_pages {body : Phys → Word → Recorded ImageAccess Stall Phys}
    {g : Phys → ℕ → Option Phys} (hbody : ∀ page ∈ ph.pages, ∀ s,
      Runs (ImageAccess.Ok img) (body s page) (orFail .outOfMemory (g s page.toNat)))
    {turns : ℕ} (hpage : page.toNat % 4096 = 0) (hlo : ph.startPage.toNat ≤ page.toNat)
    (hturns : turns = (ph.endPage.toNat - page.toNat) / 4096) (s : Phys) :
    Runs (ImageAccess.Ok img) (recordPages body ph.endPage turns page s)
      (orFail .outOfMemory (forPages g page.toNat ph.endPage.toNat s)) := by
  have hend := endPage_toNat ph
  have hlt := ph.endPage.isLt
  induction turns generalizing page s with
  | zero =>
    -- no turn is left, and no page either
    have hdone : ¬ page < ph.endPage := by
      rw [BitVec.lt_def]
      omega
    rw [recordPages, if_neg hdone, forPages_of_le (by rw [BitVec.lt_def] at hdone; omega)]
    exact Runs.pure s
  | succ turns ih =>
    have hmore : page.toNat < ph.endPage.toNat := by omega
    -- `end_page` is a multiple of the page size above `page`, so the next page is at most there
    have hnext : (page + 4096#64).toNat = page.toNat + 4096 := by
      rw [BitVec.toNat_add, BitVec.toNat_ofNat]
      omega
    rw [recordPages, if_pos (BitVec.lt_def.mpr hmore), forPages_of_lt hmore, orFail_bind]
    refine (hbody page (mem_pages.mpr ⟨hpage, hlo, hmore⟩) s).bind fun t _ => ?_
    refine (runs_addWords (by rw [BitVec.toNat_ofNat]; omega)).andThen ?_
    rw [← hnext]
    exact ih (by omega) (by omega) (by omega) t

theorem runs_loadSegment (htable : TableOk img) (hi : i < img.ehdr.ePhnum.toNat)
    (hok : (img.phdr i).IsLoad → SegmentOk img.appElfLen (img.phdr i)) (newPgd : ℕ) (s : Phys) :
    Runs (ImageAccess.Ok img) (recordLoadSegment img img.ehdr.ePhoff newPgd s i)
      (orFail .outOfMemory (loadSegment img newPgd s i)) := by
  refine (runs_readType htable hi).andThen ?_
  rw [loadSegment]
  by_cases hload : (img.phdr i).pType = 1
  · rw [if_neg (not_not.mpr hload), if_neg (not_not.mpr (show (img.phdr i).IsLoad from hload))]
    refine (runs_readPhdr htable hi).andThen ?_
    refine runs_pages (fun page hpage s => runs_loadPage (hok hload) hpage newPgd s) ?_ le_rfl rfl s
    rw [startPage_toNat]
    omega
  · rw [if_pos hload, if_pos (show ¬ (img.phdr i).IsLoad from hload)]
    exact Runs.pure s

/-- Loading an accepted image. -/
theorem runs_loadImage (h : validateExecImage img = .ok ()) (s : Phys) :
    Runs (ImageAccess.Ok img) (recordLoadImage img s) (orFail .outOfMemory (loadImage img s)) := by
  obtain ⟨hlen, -, htable, -⟩ := validateExecImage_eq_ok_iff.mp h
  rw [loadImage, orFail_bind]
  refine (Runs.lift _).bind fun r _ => ?_
  obtain ⟨newPgd, s⟩ := r
  dsimp only
  rw [orFail_bind]
  refine (Runs.lift _).bind fun r _ => ?_
  obtain ⟨newStackPa, s⟩ := r
  dsimp only
  rw [orFail_bind]
  refine (Runs.lift _).bind fun s _ => ?_
  refine (runs_readEhdr (v := img.ehdr.ePhoff) hlen (by decide) rfl).andThen ?_
  refine (runs_readEhdr (v := img.ehdr.ePhnum) hlen (by decide) rfl).andThen ?_
  rw [orFail_bind, orFail_foldlM]
  refine (Runs.foldlM (fun i hi s => ?_) s).bind fun s _ => Runs.pure _
  have hin := List.mem_range.mp hi
  exact runs_loadSegment htable hin ((accepted_of_ok h).segment i hin) newPgd s

/-- Validating and loading an image stays in bounds. -/
structure InBounds (img : AppImage) : Prop where
  /-- The reads of the validator. -/
  validate : Runs (ImageAccess.Ok img) (recordValidateExecImage img) (validateExecImage img)
  /-- The reads and writes of the loader, which leaves each loop over pages in time. -/
  load : ∀ s, Runs (ImageAccess.Ok img) (recordLoadImage img s)
    (orFail .outOfMemory (loadImage img s))
  /-- The turns of the loop over the pages of a segment, and the sums it depends on. -/
  segment : ∀ i < img.ehdr.ePhnum.toNat, (img.phdr i).IsLoad → SegmentInBounds (img.phdr i)
  /-- Nothing depends on what is past the end of `app_elf`. -/
  content : ∀ img', SameBytes img img' → validateExecImage img' = validateExecImage img ∧
    ∀ s, loadImage img' s = loadImage img s

/-- Whatever image the validator accepts, validating it and loading it stays in bounds. -/
theorem load_in_bounds (h : validateExecImage img = .ok ()) : InBounds img where
  validate := runs_validateExecImage img
  load := runs_loadImage h
  segment i hi hload := by
    obtain ⟨hmem, hsize, -⟩ := ((accepted_of_ok h).segment i hi hload).noWraps
    exact ⟨exists_turns _, by omega⟩
  content _ hsame := ⟨hsame.validateExecImage h, loadImage_congr hsame h⟩

/-- An image of two segments with bytes in the file, one of which ends inside its second page. -/
theorem load_in_bounds_twoSegments : InBounds twoSegments :=
  load_in_bounds twoSegments_accepted

end Bounds

end RiscvKernel
