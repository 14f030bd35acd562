import RiscvKernel.Exec.Validate

/-!
# Loading an image

The part of `task_exec` that builds the new address space, with its nested loops.

* `fillPage_byte`: what a page of a segment holds.
* `loadPage_spec`, `loadSegment_spec`: a page and a segment.
* `loadImage_spec`: the whole image. The new page table leads to the stack page and to the pages
  of the segments, all of them in pages taken from the front of the free list and filled from the
  image; it owns all pages taken if no two of the mapped pages use the same leaf entry.
-/

namespace RiscvKernel

open ByteMemory RadixTable EntryFormat

/-- `ELF_PF_X`, `ELF_PF_W` and `ELF_PF_R`. -/
def elfPfX : BitVec 32 := 0x1#32

@[inherit_doc elfPfX]
def elfPfW : BitVec 32 := 0x2#32

@[inherit_doc elfPfX]
def elfPfR : BitVec 32 := 0x4#32

/-- `load_segment_flags`. -/
def loadSegmentFlags (ph : Elf64Phdr) : Word :=
  let flags := pteU ||| pteV
  let flags := if ph.pFlags &&& elfPfR ≠ 0 then flags ||| pteR else flags
  let flags := if ph.pFlags &&& elfPfW ≠ 0 then flags ||| pteW else flags
  if ph.pFlags &&& elfPfX ≠ 0 then flags ||| pteX else flags

/-- `copy_start` of `task_exec`. -/
def copyStart (ph : Elf64Phdr) (page : Word) : Word := if page > ph.pVaddr then page else ph.pVaddr

/-- `copy_end` of `task_exec`. -/
def copyEnd (ph : Elf64Phdr) (page : Word) : Word :=
  if page + 4096#64 < ph.pVaddr + ph.pFilesz then page + 4096#64 else ph.pVaddr + ph.pFilesz

/-- What `task_exec` writes to a page of a segment: zeros, then the bytes of the file that
belong there. -/
def fillPage (img : AppImage) (ph : Elf64Phdr) (page : Word) (phys : ℕ) (m : Mem) : Mem :=
  if copyStart ph page < copyEnd ph page then
    let srcOffset := ph.pOffset + (copyStart ph page - ph.pVaddr)
    storeLoop (fun _ b => img.appElf (srcOffset + BitVec.ofNat 64 b).toNat)
      (phys + (copyStart ph page &&& 0xFFF#64).toNat) (copyEnd ph page - copyStart ph page).toNat
      (clearPage m phys)
  else clearPage m phys

/-- The body of the loop of `task_exec` over the pages of a segment. -/
def loadPage (img : AppImage) (ph : Elf64Phdr) (newPgd : ℕ) (s : Phys) (page : ℕ) : Option Phys :=
  (allocPage s).bind fun (phys, s) =>
    mapPage newPgd (BitVec.ofNat 64 page) (BitVec.ofNat 64 phys) (loadSegmentFlags ph)
      { s with mem := fillPage img ph (BitVec.ofNat 64 page) phys s.mem }

/-- The body of the loop of `task_exec` over the program headers. -/
def loadSegment (img : AppImage) (newPgd : ℕ) (s : Phys) (i : ℕ) : Option Phys :=
  let ph := img.phdr i
  if ¬ ph.IsLoad then some s
  else forPages (loadPage img ph newPgd) ph.startPage.toNat ph.endPage.toNat s

/-- `task_exec` from the allocation of the new page table to the end of the loops. Returns the
new page table. -/
def loadImage (img : AppImage) (s : Phys) : Option (ℕ × Phys) :=
  (allocPage s).bind fun (newPgd, s) =>
  (allocPage s).bind fun (newStackPa, s) =>
  (mapUserStack newPgd newStackPa s).bind fun s =>
  ((List.range img.ehdr.ePhnum.toNat).foldlM (loadSegment img newPgd) s).bind fun s =>
    some (newPgd, s)

/-! ### Flags -/

theorem loadSegmentFlags_lt (ph : Elf64Phdr) : (loadSegmentFlags ph).toNat < 2 ^ 10 := by
  rw [loadSegmentFlags]
  split_ifs <;> decide

theorem loadSegmentFlags_valid (ph : Elf64Phdr) : loadSegmentFlags ph &&& pteV ≠ 0 := by
  rw [loadSegmentFlags]
  split_ifs <;> decide

/-! ### One page -/

variable {img : AppImage} {ph : Elf64Phdr} {m : Mem} {phys kernelEnd pgd : ℕ} {page : Word}

theorem copyStart_toNat (ph : Elf64Phdr) (page : Word) :
    (copyStart ph page).toNat = max page.toNat ph.pVaddr.toNat := by
  rw [copyStart]
  split_ifs with hgt
  · rw [gt_iff_lt, BitVec.lt_def] at hgt
    omega
  · rw [gt_iff_lt, BitVec.lt_def] at hgt
    omega

theorem copyEnd_toNat (ph : Elf64Phdr) (hlt : page.toNat + 4096 < 2 ^ 64) :
    (copyEnd ph page).toNat = min (page.toNat + 4096) (ph.pVaddr + ph.pFilesz).toNat := by
  have hpageEnd : (page + 4096#64).toNat = page.toNat + 4096 := by
    rw [BitVec.toNat_add]
    exact Nat.mod_eq_of_lt hlt
  rw [copyEnd]
  split_ifs with hend
  · rw [BitVec.lt_def, hpageEnd] at hend
    omega
  · rw [BitVec.lt_def, hpageEnd] at hend
    omega

/-- The copy into a page of a segment starts at its offset in the page. -/
theorem copyStart_offset (hpage : page.toNat % 4096 = 0) (hlt : page.toNat + 4096 < 2 ^ 64)
    (hcopy : copyStart ph page < copyEnd ph page) :
    (copyStart ph page &&& 0xFFF#64).toNat = (copyStart ph page).toNat - page.toNat := by
  rw [BitVec.lt_def, copyEnd_toNat ph hlt, copyStart_toNat] at hcopy
  rw [BitVec.toNat_and, show (0xFFF#64 : Word).toNat = 2 ^ 12 - 1 from rfl,
    Nat.and_two_pow_sub_one_eq_mod, copyStart_toNat]
  omega

/-- The copy into a page of a segment stays inside the page. -/
theorem copy_inside (hpage : page.toNat % 4096 = 0) (hlt : page.toNat + 4096 < 2 ^ 64)
    (hcopy : copyStart ph page < copyEnd ph page) :
    (copyStart ph page &&& 0xFFF#64).toNat + (copyEnd ph page - copyStart ph page).toNat
      ≤ 4096 := by
  rw [copyStart_offset hpage hlt hcopy, BitVec.toNat_sub_of_le (BitVec.le_of_lt hcopy)]
  rw [BitVec.lt_def] at hcopy
  rw [copyEnd_toNat ph hlt, copyStart_toNat] at *
  omega

/-- Filling a page of a segment writes to that page only. -/
theorem eqOff_fillPage (hphys : PageAligned phys) (hpage : page.toNat % 4096 = 0)
    (hlt : page.toNat + 4096 < 2 ^ 64) : EqOff {phys} m (fillPage img ph page phys m) := by
  rw [fillPage]
  split_ifs with hcopy
  · have hin := copy_inside hpage hlt hcopy
    refine (eqOff_clearPage m hphys).trans_self ?_
    intro a ha
    dsimp only
    rw [storeLoop_apply fun _ _ _ _ => rfl, if_neg]
    intro hrange
    apply ha
    rw [Multiset.mem_singleton, show a = phys + (a - phys) by omega]
    exact pageOf_add hphys (by omega)
  · exact eqOff_clearPage m hphys

/-- The byte that belongs at an address of a segment: of the file, or zero. -/
def fileByte (img : AppImage) (ph : Elf64Phdr) (va : Word) : Byte :=
  if ph.pVaddr ≤ va ∧ va < ph.pVaddr + ph.pFilesz then
    img.appElf (ph.pOffset + (va - ph.pVaddr)).toNat
  else 0

/-- The range copied into a page is the part of the file range that lies in it. -/
theorem inFile_iff {va : Word} (hlt : page.toNat + 4096 < 2 ^ 64) (hge : page.toNat ≤ va.toNat)
    (hin : va.toNat < page.toNat + 4096) :
    ph.pVaddr ≤ va ∧ va < ph.pVaddr + ph.pFilesz ↔
      copyStart ph page ≤ va ∧ va < copyEnd ph page := by
  rw [BitVec.le_def, BitVec.le_def, BitVec.lt_def, BitVec.lt_def, copyStart_toNat,
    copyEnd_toNat ph hlt]
  omega

theorem add_sub_add_sub (a b c d : Word) : a + (b - c) + (d - b) = a + (d - c) := by
  rw [BitVec.add_assoc, BitVec.sub_eq_add_neg b c, BitVec.add_comm b, BitVec.add_assoc,
    BitVec.add_comm b, BitVec.sub_add_cancel, BitVec.add_comm _ d, ← BitVec.sub_eq_add_neg]

/-- What a page of a segment holds when it is mapped. -/
theorem fillPage_byte (hpage : page.toNat % 4096 = 0) (hlt : page.toNat + 4096 < 2 ^ 64) {b : ℕ}
    (hb : b < 4096) :
    fillPage img ph page phys m (phys + b) = fileByte img ph (page + BitVec.ofNat 64 b) := by
  set va := page + BitVec.ofNat 64 b with hva
  have hnat : va.toNat = page.toNat + b := by
    rw [hva, BitVec.toNat_add, BitVec.toNat_ofNat]
    omega
  have hinFile : ph.pVaddr ≤ va ∧ va < ph.pVaddr + ph.pFilesz ↔
      copyStart ph page ≤ va ∧ va < copyEnd ph page := inFile_iff hlt (by omega) (by omega)
  rw [fileByte, fillPage]
  by_cases hcopy : copyStart ph page < copyEnd ph page
  · have hoffset := copyStart_offset hpage hlt hcopy
    have hlen := BitVec.toNat_sub_of_le (BitVec.le_of_lt hcopy)
    have hstart : page.toNat ≤ (copyStart ph page).toNat := by
      rw [copyStart_toNat]
      exact Nat.le_max_left _ _
    rw [if_pos hcopy, storeLoop_apply fun _ _ _ _ => rfl, clearPage_apply, hoffset, hlen,
      if_pos (by omega : phys ≤ phys + b ∧ phys + b < phys + 4096)]
    by_cases hfile : ph.pVaddr ≤ va ∧ va < ph.pVaddr + ph.pFilesz
    · have hin := hinFile.mp hfile
      rw [BitVec.le_def, BitVec.lt_def] at hin
      rw [if_pos hfile, if_pos (by omega)]
      -- the offset in the file, as the loop counts it
      have hindex : BitVec.ofNat 64 (phys + b - (phys + ((copyStart ph page).toNat - page.toNat)))
          = va - copyStart ph page := by
        apply BitVec.eq_of_toNat_eq
        rw [BitVec.toNat_sub_of_le hin.1, BitVec.toNat_ofNat]
        omega
      rw [hindex, add_sub_add_sub]
    · rw [if_neg hfile, if_neg]
      intro hrange
      apply hfile
      rw [hinFile, BitVec.le_def, BitVec.lt_def]
      omega
  · -- the file part does not reach into this page
    rw [if_neg hcopy, clearPage_apply, if_pos (by omega), if_neg]
    intro hfile
    have hin := hinFile.mp hfile
    rw [BitVec.le_def, BitVec.lt_def] at hin
    rw [BitVec.lt_def] at hcopy
    omega

/-! ### The loops -/

variable {s : Phys} {free : List ℕ} {maps : List Mapping} {used : Multiset ℕ}

/-- A mapping of the loader: a page outside the kernel image. -/
structure Loaded (kernelEnd : ℕ) (x : Mapping) : Prop where
  ok : x.Ok
  frame : kernelEnd ≤ x.frame

/-- The page of a mapping holds what belongs there in the segment. -/
structure SegmentLoaded (kernelEnd : ℕ) (img : AppImage) (ph : Elf64Phdr) (m : Mem) (x : Mapping) :
    Prop where
  loaded : Loaded kernelEnd x
  flags : x.flags = loadSegmentFlags ph
  bytes : ∀ b < 4096, m (x.frame + b) = fileByte img ph (x.va + BitVec.ofNat 64 b)

theorem frameLocal_segmentLoaded (kernelEnd : ℕ) (img : AppImage) (ph : Elf64Phdr) :
    FrameLocal kernelEnd (SegmentLoaded kernelEnd img ph) :=
  fun _ _ _ hm h => ⟨h.loaded, h.flags, fun b hb => by rw [hm h.loaded.frame b hb, h.bytes b hb]⟩

/-- The body of the loop over pages takes a page for the frame, and at most two for tables. -/
theorem loadPage_spec {p : ℕ} (h : Building kernelEnd s pgd maps used free)
    (hfree : ∀ q ∈ free, kernelEnd ≤ q) (hp : p % 4096 = 0) (hlt : p + 4096 < 2 ^ 64) :
    Outcome (free.length < 3)
      (fun s' => ∃ x taken free', x.va = BitVec.ofNat 64 p ∧
        SegmentLoaded kernelEnd img ph s'.mem x ∧
        taken.length ≤ 3 ∧ Extended kernelEnd s s' pgd maps [x] used free taken free')
      (loadPage img ph pgd s p) := by
  refine ((allocPage_spec h.isFree).mono (fun hstuck => by omega) fun _ h => h).bind ?_
  rintro ⟨frame, t⟩ ⟨free', rfl, hf, hoff, -⟩
  have htoNat : (BitVec.ofNat 64 p).toNat = p := by
    rw [BitVec.toNat_ofNat]
    omega
  have hframe : IsPage frame := h.isFree.isPage _ List.mem_cons_self
  have hfill : EqOff {frame} t.mem (fillPage img ph (BitVec.ofNat 64 p) frame t.mem) :=
    eqOff_fillPage hframe.aligned (by rwa [htoNat]) (by rwa [htoNat])
  set x : Mapping := ⟨BitVec.ofNat 64 p, frame, loadSegmentFlags ph⟩ with hx
  have hxok : x.Ok := ⟨hframe, loadSegmentFlags_lt ph, loadSegmentFlags_valid ph⟩
  -- the bytes go to the page that was taken, which is no free page any more
  have hf' : FreePages { t with mem := fillPage img ph (BitVec.ofNat 64 p) frame t.mem } free' := by
    apply hf.eqOff hfill
    intro q hq
    rw [Multiset.mem_singleton]
    rintro rfl
    exact (List.nodup_cons.mp h.isFree.nodup).1 hq
  refine (Building.mapFrame h hf' (hoff.trans_self hfill) hxok
    (hfree _ List.mem_cons_self)).mono ?_ ?_
  · intro hstuck
    rw [List.length_cons]
    omega
  · rintro s' ⟨taken, free'', hlen, hkept, hext⟩
    refine ⟨x, taken, free'', rfl, ⟨⟨hxok, hfree _ List.mem_cons_self⟩, rfl, fun b hb => ?_⟩,
      hlen, hext⟩
    rw [hkept b hb]
    exact fillPage_byte (by rwa [htoNat]) (by rwa [htoNat]) hb

/-- The pages the loader maps for header `i`. -/
def headerPages (img : AppImage) (i : ℕ) : List Word :=
  if (img.phdr i).IsLoad then (img.phdr i).pages else []

theorem segmentPages_eq (img : AppImage) :
    segmentPages img = (List.range img.ehdr.ePhnum.toNat).flatMap (headerPages img) := rfl

/-- The body of the loop over headers maps the pages of its header. -/
theorem loadSegment_spec (img : AppImage) (i : ℕ) (h : Building kernelEnd s pgd maps used free)
    (hfree : ∀ q ∈ free, kernelEnd ≤ q) :
    Outcome (free.length < 3 * (headerPages img i).length)
      (fun s' => ∃ added taken free', added.map Mapping.va = (headerPages img i).reverse ∧
        (∀ x ∈ added, SegmentLoaded kernelEnd img (img.phdr i) s'.mem x) ∧
        taken.length ≤ 3 * (headerPages img i).length ∧
        Extended kernelEnd s s' pgd maps added used free taken free')
      (loadSegment img pgd s i) := by
  rw [loadSegment, headerPages]
  by_cases hload : (img.phdr i).IsLoad
  · rw [if_neg (not_not.mpr hload), if_pos hload, Elf64Phdr.pages, List.length_map,
      List.length_range]
    refine extended_forPages (frameLocal_segmentLoaded kernelEnd img (img.phdr i)) h ?_
    intro k hk t maps' used' rest hrest hbuilding
    have hstart := startPage_toNat (img.phdr i)
    have hend := endPage_toNat (img.phdr i)
    have hlt := (img.phdr i).endPage.isLt
    exact loadPage_spec hbuilding (fun q hq => hfree q (hrest q hq)) (by omega) (by omega)
  · rw [if_pos hload, if_neg hload]
    exact ⟨[], [], free, rfl, by simp, le_rfl, Extended.refl h⟩

/-- The mapping is of a page of one of the segments, and the page holds what belongs there. -/
def OfSegment (kernelEnd : ℕ) (img : AppImage) (n : ℕ) (m : Mem) (x : Mapping) : Prop :=
  ∃ i < n, x.va ∈ headerPages img i ∧ SegmentLoaded kernelEnd img (img.phdr i) m x

theorem frameLocal_ofSegment (kernelEnd : ℕ) (img : AppImage) (n : ℕ) :
    FrameLocal kernelEnd (OfSegment kernelEnd img n) := by
  rintro m m' x hm ⟨i, hi, hva, h⟩
  exact ⟨i, hi, hva, frameLocal_segmentLoaded kernelEnd img _ m m' x hm h⟩

/-- The loop over headers maps the pages of all segments. -/
theorem loadSegments_spec (h : Building kernelEnd s pgd maps used free)
    (hfree : ∀ q ∈ free, kernelEnd ≤ q) (n : ℕ) :
    Outcome (free.length < 3 * ((List.range n).flatMap (headerPages img)).length)
      (fun s' => ∃ added taken free',
        added.map Mapping.va = ((List.range n).flatMap (headerPages img)).reverse ∧
        (∀ x ∈ added, OfSegment kernelEnd img n s'.mem x) ∧
        taken.length ≤ 3 * ((List.range n).flatMap (headerPages img)).length ∧
        Extended kernelEnd s s' pgd maps added used free taken free')
      ((List.range n).foldlM (loadSegment img pgd) s) := by
  induction n with
  | zero => exact ⟨[], [], free, rfl, by simp, Nat.zero_le _, Extended.refl h⟩
  | succ n ih =>
    rw [List.range_succ, List.foldlM_append, List.flatMap_append, List.length_append,
      List.reverse_append]
    refine (ih.mono (fun hstuck => by omega) fun _ h => h).bind ?_
    rintro t ⟨added, taken, free', hvas, hloaded, hlen, hext⟩
    -- the pages that the earlier headers have taken are gone from the free list
    have hlength : free.length = taken.length + free'.length := by
      rw [hext.free_eq, List.length_append]
    have hlast := loadSegment_spec img n hext.building
      (fun q hq => hfree q (hext.mem_free q hq))
    rw [List.foldlM_cons, List.flatMap_cons, List.flatMap_nil, List.append_nil]
    refine (hlast.mono (fun hstuck => by omega) fun _ h => h).bind ?_
    rintro t' ⟨added', taken', free'', hvas', hloaded', hlen', hext'⟩
    refine ⟨added' ++ added, taken ++ taken', free'', ?_, ?_, ?_, hext.trans hext'⟩
    · rw [List.map_append, hvas, hvas']
    · intro x hx
      rcases List.mem_append.mp hx with hx | hx
      · have hva : x.va ∈ headerPages img n := by
          rw [← List.mem_reverse, ← hvas']
          exact List.mem_map_of_mem hx
        exact ⟨n, Nat.lt_succ_self n, hva, hloaded' x hx⟩
      · -- an earlier segment, which the last header left alone
        obtain ⟨i, hi, hva, h⟩ := hext'.keep hext.building (frameLocal_ofSegment kernelEnd img n)
          (List.mem_append_left _ hx) (hloaded x hx)
        exact ⟨i, by omega, hva, h⟩
    · rw [List.length_append]
      omega

/-- The mapping of the stack page, which is empty. -/
structure StackLoaded (kernelEnd : ℕ) (m : Mem) (x : Mapping) : Prop where
  loaded : Loaded kernelEnd x
  va : x.va = userStackPageVa
  flags : x.flags = pteR ||| pteW ||| pteU ||| pteV
  bytes : ∀ b < 4096, m (x.frame + b) = 0

theorem frameLocal_stackLoaded (kernelEnd : ℕ) : FrameLocal kernelEnd (StackLoaded kernelEnd) :=
  fun _ _ _ hm h =>
    ⟨h.loaded, h.va, h.flags, fun b hb => by rw [hm h.loaded.frame b hb, h.bytes b hb]⟩

/-- A mapping of a loaded image. -/
def ImageLoaded (kernelEnd : ℕ) (img : AppImage) (m : Mem) (x : Mapping) : Prop :=
  StackLoaded kernelEnd m x ∨ OfSegment kernelEnd img img.ehdr.ePhnum.toNat m x

theorem frameLocal_imageLoaded (kernelEnd : ℕ) (img : AppImage) :
    FrameLocal kernelEnd (ImageLoaded kernelEnd img) :=
  fun m m' x hm h => h.imp (frameLocal_stackLoaded kernelEnd m m' x hm)
    (frameLocal_ofSegment kernelEnd img _ m m' x hm)

theorem ImageLoaded.loaded {x : Mapping} (h : ImageLoaded kernelEnd img m x) :
    Loaded kernelEnd x := by
  rcases h with h | ⟨i, -, -, h⟩
  · exact h.loaded
  · exact h.loaded

/-- The page table `pgd` leads to the loaded image, in the pages `taken`. -/
structure HasImage (kernelEnd : ℕ) (img : AppImage) (m : Mem) (pgd : ℕ) (maps : List Mapping)
    (taken : List ℕ) : Prop where
  built : Built kernelEnd m pgd maps ↑taken
  vas : maps.map Mapping.va = (mappedPages img).reverse
  loaded : ∀ x ∈ maps, ImageLoaded kernelEnd img m x

/-- Mappings of pages with different leaf entries do not share a leaf entry. -/
theorem HasImage.slotsDiffer {taken : List ℕ} (h : HasImage kernelEnd img m pgd maps taken)
    (hslots : (mappedPages img).Pairwise fun p q => leafSlot p ≠ leafSlot q) :
    maps.Pairwise SlotsDiffer := by
  -- the mappings stand in the order opposite to that of the pages
  rw [← List.reverse_reverse (mappedPages img), ← h.vas, List.pairwise_reverse,
    List.pairwise_map] at hslots
  exact hslots.imp Ne.symm

/-- A change off the pages taken keeps the image. -/
theorem HasImage.eqOff {m' : Mem} {S : Multiset ℕ} {taken : List ℕ}
    (h : HasImage kernelEnd img m pgd maps taken) (hm : EqOff S m m') (hS : ∀ x ∈ taken, x ∉ S) :
    HasImage kernelEnd img m' pgd maps taken := by
  refine ⟨h.built.eqOff hm hS, h.vas, fun x hx => ?_⟩
  refine frameLocal_imageLoaded kernelEnd img m m' x (fun hge b hb => ?_) (h.loaded x hx)
  apply hm.byte_eq (h.built.ok x hx).isPage.aligned hb
  have hmem := mem_framesOf hx hge
  have hle := Multiset.le_add_left (framesOf kernelEnd maps) (sv39.tables m 3 pgd)
  rw [h.built.tables_add] at hle
  exact hS _ (Multiset.mem_of_le hle hmem)

/-- Loading an image builds an address space out of the first free pages. -/
theorem loadImage_spec (hf : FreePages s free) (hfree : ∀ q ∈ free, kernelEnd ≤ q) :
    Outcome (free.length < 4 + 3 * (segmentPages img).length)
      (fun r => ∃ maps taken free',
        (free = taken ++ free' ∧ taken.length ≤ 4 + 3 * (segmentPages img).length) ∧
        FreePages r.2 free' ∧ HasImage kernelEnd img r.2.mem r.1 maps taken ∧
        EqOff ↑taken s.mem r.2.mem)
      (loadImage img s) := by
  -- the page table itself
  refine ((allocPage_spec hf).mono (fun hstuck => by omega) fun _ h => h).bind ?_
  rintro ⟨newPgd, t⟩ ⟨free₁, rfl, hf₁, hoff₁, hz₁⟩
  have hpgd : IsPage newPgd := hf.isPage _ List.mem_cons_self
  have hnd : ((free₁ : Multiset ℕ) + {newPgd}).Nodup := by
    rw [add_comm, Multiset.singleton_add, Multiset.cons_coe]
    exact hf.nodup
  have hbuilding : Building kernelEnd t newPgd [] {newPgd} free₁ :=
    ⟨Built.of_cleared hpgd.aligned hz₁, hf₁, hnd⟩
  have hfree₁ : ∀ q ∈ free₁, kernelEnd ≤ q := fun q hq => hfree q (List.mem_cons_of_mem _ hq)
  -- the stack page
  refine ((allocPage_spec hf₁).mono (fun hstuck => ?_) fun _ h => h).bind ?_
  · rw [List.length_cons]
    omega
  rintro ⟨stackPa, u⟩ ⟨free₂, rfl, hf₂, hoff₂, hz₂⟩
  set x : Mapping := ⟨userStackPageVa, stackPa, pteR ||| pteW ||| pteU ||| pteV⟩ with hx
  have hflags : (pteR ||| pteW ||| pteU ||| pteV).toNat < 2 ^ 10 := by decide
  have hvalid : (pteR ||| pteW ||| pteU ||| pteV) &&& pteV ≠ 0 := by decide
  have hxok : x.Ok := ⟨hf₁.isPage _ List.mem_cons_self, hflags, hvalid⟩
  have hxframe : kernelEnd ≤ x.frame := hfree₁ _ List.mem_cons_self
  have hstack := Building.mapFrame (x := x) hbuilding hf₂ hoff₂ hxok hxframe
  refine (hstack.mono (fun hstuck => ?_) fun _ h => h).bind ?_
  · rw [List.length_cons, List.length_cons]
    omega
  rintro v ⟨taken, free₃, hlen, hkept, hext⟩
  have hxstack : StackLoaded kernelEnd v.mem x :=
    ⟨⟨hxok, hxframe⟩, rfl, rfl, fun b hb => (hkept b hb).trans (hz₂ b hb)⟩
  have hlength : (x.frame :: free₂).length = taken.length + free₃.length := by
    rw [hext.free_eq, List.length_append]
  have hlength' : (x.frame :: free₂).length = free₂.length + 1 := rfl
  -- the segments
  refine ((loadSegments_spec hext.building (fun q hq => hfree₁ q (hext.mem_free q hq))
    img.ehdr.ePhnum.toNat).mono (fun hstuck => ?_) fun _ h => h).bind ?_
  · rw [← segmentPages_eq] at hstuck
    change free₂.length + 1 + 1 < _
    omega
  rintro w ⟨added, taken', free', hvas, hloaded, hlen', hext'⟩
  have hall := hext.trans hext'
  refine ⟨added ++ [x], newPgd :: (taken ++ taken'), free', ⟨?_, ?_⟩, hall.building.isFree,
    ⟨?_, ?_, ?_⟩, ?_⟩
  · rw [List.cons_append, ← hall.free_eq]
  · rw [List.length_cons, List.length_append, segmentPages_eq]
    omega
  · have hbuilt := hall.building.built
    rwa [Multiset.singleton_add, Multiset.cons_coe, List.append_nil] at hbuilt
  · rw [List.map_append, hvas, ← segmentPages_eq, mappedPages, List.reverse_cons]
    rfl
  · intro y hy
    rcases List.mem_append.mp hy with hy | hy
    · exact Or.inr (hloaded y hy)
    · obtain rfl := List.mem_singleton.mp hy
      exact Or.inl (hext'.keep hext.building (frameLocal_stackLoaded kernelEnd)
        (List.mem_append_left _ hy) hxstack)
  · have heqOff := hall.eqOff_used hbuilding
    rw [Multiset.singleton_add, Multiset.cons_coe] at heqOff
    refine (hoff₁.mono fun q hq => ?_).trans_self heqOff
    rw [Multiset.mem_singleton] at hq
    rw [hq]
    exact List.mem_cons_self

end RiscvKernel
