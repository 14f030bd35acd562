import RiscvKernel.Exec.Elf

/-!
# What an accepted image maps

`validate_exec_image` compares address ranges of 64 bits, `walk_pte` looks at bits 38 to 12 of
an address only. The pages of an accepted image do not overlap as address ranges
(`Accepted.pages_apart`); they use different leaf entries of an Sv39 table exactly when every
segment lies in one of the two halves of the Sv39 address space (`pagesFit_iff`).
-/

namespace RiscvKernel

open ByteMemory

/-! ### What an accepted image satisfies -/

/-- What `validate_exec_image` has checked of one `PT_LOAD` header by itself. -/
structure SegmentOk (len : BitVec 32) (ph : Elf64Phdr) : Prop where
  filesz_le : ph.pFilesz ≤ ph.pMemsz
  file_le : ph.pOffset + ph.pFilesz ≤ len.setWidth 64
  file_noWrap : ph.pOffset ≤ ph.pOffset + ph.pFilesz
  noWrap : ph.pVaddr ≤ ph.pVaddr + ph.pMemsz
  notStack : rangesOverlap ph.pVaddr (ph.pVaddr + ph.pMemsz) userStackGuardVa userStackTop = false

/-- What `validate_exec_image` has checked of an image it accepts. -/
structure Accepted (img : AppImage) : Prop where
  header : sizeofEhdr ≤ img.appElfLen.toNat
  table : img.ehdr.ePhoff + img.ehdr.ePhnum.setWidth 64 * BitVec.ofNat 64 sizeofPhdr
    ≤ img.appElfLen.setWidth 64
  segment : ∀ i < img.ehdr.ePhnum.toNat, (img.phdr i).IsLoad →
    SegmentOk img.appElfLen (img.phdr i)
  apart : ∀ i j, i < j → j < img.ehdr.ePhnum.toNat → (img.phdr i).IsLoad → (img.phdr j).IsLoad →
    rangesOverlap (img.phdr i).startPage (img.phdr i).endPage (img.phdr j).startPage
      (img.phdr j).endPage = false

/-- A loop of checks succeeds exactly when every turn does. -/
theorem forM_eq_ok_iff {α ε : Type*} {f : α → Except ε Unit} {l : List α} :
    l.forM f = .ok () ↔ ∀ x ∈ l, f x = .ok () := by
  induction l with
  | nil => simp only [List.not_mem_nil, false_implies, implies_true, iff_true]; rfl
  | cons y l ih =>
    change (f y).bind (fun _ => l.forM f) = .ok () ↔ _
    cases hy : f y with
    | error e => simp [Except.bind, hy]
    | ok u => simpa [Except.bind, hy] using ih

/-- The entry point lies in the segment of a loadable header. -/
def Elf64Phdr.HasEntry (ph : Elf64Phdr) (entry : Word) : Prop :=
  ph.IsLoad ∧ ph.pVaddr ≤ entry ∧ entry < ph.pVaddr + ph.pMemsz

/-- The checks of `validate_exec_image` on header `i` pass. -/
def PhdrOk (img : AppImage) (i : ℕ) : Prop :=
  (img.phdr i).IsLoad → checkSegment img.appElfLen (img.phdr i) = .ok () ∧
    ∀ j, i < j → j < img.ehdr.ePhnum.toNat → checkAgainst (img.phdr i) (img.phdr j) = .ok ()

theorem checkPhdr_eq_ok_iff {img : AppImage} {i : ℕ} {entryOk result : Bool} :
    checkPhdr img entryOk i = .ok result ↔ PhdrOk img i ∧
      (result = true ↔ entryOk = true ∨ (img.phdr i).HasEntry img.ehdr.eEntry) := by
  rw [checkPhdr, PhdrOk, Elf64Phdr.HasEntry]
  by_cases hload : (img.phdr i).IsLoad
  · simp only [hload, not_true_eq_false, if_false, true_implies, true_and]
    -- the inner loop compares with the later headers
    have hinner : (List.range' (i + 1) (img.ehdr.ePhnum.toNat - (i + 1))).forM
        (fun j => checkAgainst (img.phdr i) (img.phdr j)) = .ok () ↔
        ∀ j, i < j → j < img.ehdr.ePhnum.toNat →
          checkAgainst (img.phdr i) (img.phdr j) = .ok () := by
      rw [forM_eq_ok_iff]
      refine forall_congr' fun j => ?_
      rw [List.mem_range'_1]
      constructor
      · exact fun h hij hj => h (by omega)
      · exact fun h hmem => h (by omega) (by omega)
    rw [← hinner]
    cases checkSegment img.appElfLen (img.phdr i) with
    | error e => simp [bind, Except.bind]
    | ok u =>
      cases (List.range' (i + 1) (img.ehdr.ePhnum.toNat - (i + 1))).forM
          (fun j => checkAgainst (img.phdr i) (img.phdr j)) with
      | error e => simp [bind, Except.bind]
      | ok u' =>
        cases result <;> simp [bind, Except.bind, pure, Except.pure]
  · simp only [hload, not_false_eq_true, if_true, false_implies, true_and, false_and, or_false]
    cases result <;> cases entryOk <;> simp [pure, Except.pure]

/-- The loop over the headers succeeds exactly when the checks of every header pass, and says
whether one of the segments has the entry point. -/
theorem foldlM_checkPhdr_eq_ok_iff {img : AppImage} {k : ℕ} {result : Bool} :
    (List.range k).foldlM (checkPhdr img) false = .ok result ↔
      (∀ i < k, PhdrOk img i) ∧
        (result = true ↔ ∃ i < k, (img.phdr i).HasEntry img.ehdr.eEntry) := by
  induction k generalizing result with
  | zero => cases result <;> simp [pure, Except.pure]
  | succ k ih =>
    rw [List.range_succ, List.foldlM_append]
    have hsplit : (∀ i < k + 1, PhdrOk img i) ↔ (∀ i < k, PhdrOk img i) ∧ PhdrOk img k := by
      simp only [Nat.forall_lt_succ_right]
    have hexists : (∃ i < k + 1, (img.phdr i).HasEntry img.ehdr.eEntry) ↔
        (∃ i < k, (img.phdr i).HasEntry img.ehdr.eEntry) ∨
          (img.phdr k).HasEntry img.ehdr.eEntry := by
      simp only [Nat.exists_lt_succ_right]
    rw [hsplit, hexists]
    cases hprev : (List.range k).foldlM (checkPhdr img) false with
    | error e =>
      -- an error of an earlier header is the result
      have hnot : ¬ ∀ i < k, PhdrOk img i := by
        classical
        intro hall
        have hok := ih.mpr ⟨hall, decide_eq_true_iff⟩
        rw [hprev] at hok
        cases hok
      simp [bind, Except.bind, hnot]
    | ok entryOk =>
      obtain ⟨hall, hentry⟩ := ih.mp hprev
      simp only [List.foldlM_cons, List.foldlM_nil, bind_pure]
      change checkPhdr img entryOk k = .ok result ↔ _
      rw [checkPhdr_eq_ok_iff, hentry, and_iff_right hall]

/-- The header table lies in the image. -/
def TableOk (img : AppImage) : Prop :=
  img.ehdr.ePhoff + img.ehdr.ePhnum.setWidth 64 * BitVec.ofNat 64 sizeofPhdr
      ≤ img.appElfLen.setWidth 64 ∧
    img.ehdr.ePhoff
      ≤ img.ehdr.ePhoff + img.ehdr.ePhnum.setWidth 64 * BitVec.ofNat 64 sizeofPhdr

/-- A sum that does not wrap, as the test `a + b < a` of the source sees it. -/
theorem le_add_iff {a b : Word} : a ≤ a + b ↔ a.toNat + b.toNat < 2 ^ 64 := by
  have := a.isLt
  have := b.isLt
  rw [BitVec.le_def, BitVec.toNat_add]
  omega

/-- The test of the header table, over integers. -/
theorem tableOk_iff {img : AppImage} : TableOk img ↔
    img.ehdr.ePhoff.toNat + sizeofPhdr * img.ehdr.ePhnum.toNat ≤ img.appElfLen.toNat := by
  have hsize : (img.ehdr.ePhnum.setWidth 64 * BitVec.ofNat 64 sizeofPhdr).toNat
      = sizeofPhdr * img.ehdr.ePhnum.toNat := by
    have := img.ehdr.ePhnum.isLt
    rw [BitVec.toNat_mul, BitVec.toNat_setWidth, BitVec.toNat_ofNat, sizeofPhdr]
    omega
  have hlen : (img.appElfLen.setWidth 64).toNat = img.appElfLen.toNat := by
    rw [BitVec.toNat_setWidth]
    exact Nat.mod_eq_of_lt (img.appElfLen.isLt.trans (by decide))
  have := img.appElfLen.isLt
  rw [TableOk, le_add_iff, BitVec.le_def, BitVec.toNat_add, hsize, hlen]
  omega

/-- What `validate_exec_image` accepts, check by check. -/
theorem validateExecImage_eq_ok_iff {img : AppImage} :
    validateExecImage img = .ok () ↔
      sizeofEhdr ≤ img.appElfLen.toNat ∧ img.ehdr.ePhentsize.toNat = sizeofPhdr ∧ TableOk img ∧
        (∀ i < img.ehdr.ePhnum.toNat, PhdrOk img i) ∧
        ∃ i < img.ehdr.ePhnum.toNat, (img.phdr i).HasEntry img.ehdr.eEntry := by
  rw [validateExecImage, TableOk]
  dsimp only
  split_ifs with hlen hsize htable
  · simp [show ¬ sizeofEhdr ≤ img.appElfLen.toNat by omega]
  · simp [hsize]
  · have hnot : ¬ TableOk img := by
      rintro ⟨hle, hge⟩
      rcases htable with h | h
      · exact absurd hle (BitVec.not_le.mpr h)
      · exact absurd hge (BitVec.not_le.mpr h)
    rw [TableOk] at hnot
    simp [hnot]
  · rw [not_or, gt_iff_lt, BitVec.not_lt, BitVec.not_lt] at htable
    -- all checks before the loop have passed
    rw [and_iff_right (Nat.le_of_not_lt hlen), and_iff_right (not_not.mp hsize),
      and_iff_right htable]
    cases hloop : (List.range img.ehdr.ePhnum.toNat).foldlM (checkPhdr img) false with
    | error e =>
      have hnot : ¬ ∀ i < img.ehdr.ePhnum.toNat, PhdrOk img i := by
        classical
        intro hall
        have hok := foldlM_checkPhdr_eq_ok_iff.mpr ⟨hall, decide_eq_true_iff⟩
        rw [hloop] at hok
        cases hok
      simp [bind, Except.bind, hnot]
    | ok entryOk =>
      -- the flag says whether some segment has the entry point
      obtain ⟨hall, hentry⟩ := foldlM_checkPhdr_eq_ok_iff.mp hloop
      rw [and_iff_right hall, ← hentry]
      cases entryOk <;> simp [bind, Except.bind, pure, Except.pure]

theorem segmentOk_of_checkSegment {len : BitVec 32} {ph : Elf64Phdr}
    (h : checkSegment len ph = .ok ()) : SegmentOk len ph := by
  rw [checkSegment] at h
  dsimp only at h
  split_ifs at h with hsize hfile halign hwrap hreserved
  rw [not_or, Bool.not_eq_true] at hreserved
  rw [not_or] at hfile
  exact ⟨BitVec.not_lt.mp hsize, BitVec.not_lt.mp hfile.1, BitVec.not_lt.mp hfile.2,
    BitVec.not_lt.mp hwrap, hreserved.1⟩

theorem accepted_of_ok {img : AppImage} (h : validateExecImage img = .ok ()) : Accepted img := by
  obtain ⟨hlen, -, htable, hturns, -⟩ := validateExecImage_eq_ok_iff.mp h
  refine ⟨hlen, htable.1, fun i hi hload => segmentOk_of_checkSegment (hturns i hi hload).1,
    fun i j hij hj hload hload' => ?_⟩
  have hagainst := (hturns i (by omega) hload).2 j hij hj
  rw [checkAgainst] at hagainst
  split_ifs at hagainst with hover
  exact Bool.eq_false_iff.mpr hover

/-! ### The pages of an image -/

/-- The pages of a segment, from `start_page` up to `end_page`. -/
def Elf64Phdr.pages (ph : Elf64Phdr) : List Word :=
  (List.range ((ph.endPage.toNat - ph.startPage.toNat + 4095) / 4096)).map fun k =>
    BitVec.ofNat 64 (ph.startPage.toNat + 4096 * k)

/-- The pages of all `PT_LOAD` segments, in the order of the loader. -/
def segmentPages (img : AppImage) : List Word :=
  (List.range img.ehdr.ePhnum.toNat).flatMap fun i =>
    if (img.phdr i).IsLoad then (img.phdr i).pages else []

/-- The pages a successful `task_exec` maps, in the order of its `map_page` calls. -/
def mappedPages (img : AppImage) : List Word := userStackPageVa :: segmentPages img

/-- The pages of an image fit the page table: different calls of `map_page` use different leaf
entries, no segment uses that of the stack page or of the guard page, and all pages are
canonical addresses. -/
structure PagesFit (img : AppImage) : Prop where
  slots : (mappedPages img).Pairwise fun p q => leafSlot p ≠ leafSlot q
  reserved : ∀ p ∈ segmentPages img, leafSlot p ≠ leafSlot userStackPageVa ∧
    leafSlot p ≠ leafSlot userStackGuardVa
  canonical : ∀ p ∈ mappedPages img, Canonical p

/-- The segment has no page, or lies in the lower or in the upper half of the Sv39 addresses. -/
def Elf64Phdr.InSv39 (ph : Elf64Phdr) : Prop :=
  ph.endPage ≤ ph.startPage ∨ ph.endPage.toNat ≤ 2 ^ 38 ∨ 2 ^ 64 - 2 ^ 38 ≤ ph.startPage.toNat

/-! ### Rounding to pages -/

variable {len : BitVec 32} {ph : Elf64Phdr} {p q : Word}

theorem startPage_toNat (ph : Elf64Phdr) :
    ph.startPage.toNat = ph.pVaddr.toNat / 4096 * 4096 := toNat_and_not_fff _

theorem endPage_toNat (ph : Elf64Phdr) : ph.endPage.toNat
    = (ph.pVaddr.toNat + ph.pMemsz.toNat + 4095) % 2 ^ 64 / 4096 * 4096 := by
  rw [Elf64Phdr.endPage, toNat_and_not_fff, BitVec.toNat_add, BitVec.toNat_add]
  simp only [BitVec.toNat_ofNat]
  omega

/-- The pages of a segment are the page addresses in its rounded range. -/
theorem mem_pages : p ∈ ph.pages ↔
    p.toNat % 4096 = 0 ∧ ph.startPage.toNat ≤ p.toNat ∧ p.toNat < ph.endPage.toNat := by
  have hstart := startPage_toNat ph
  have hlt := ph.endPage.isLt
  rw [Elf64Phdr.pages, List.mem_map]
  constructor
  · rintro ⟨k, hk, rfl⟩
    rw [List.mem_range] at hk
    have hend : ph.startPage.toNat + 4096 * k < ph.endPage.toNat := by omega
    have htoNat : (BitVec.ofNat 64 (ph.startPage.toNat + 4096 * k)).toNat
        = ph.startPage.toNat + 4096 * k := by
      rw [BitVec.toNat_ofNat]
      exact Nat.mod_eq_of_lt (hend.trans hlt)
    rw [htoNat]
    omega
  · rintro ⟨hal, hge, hlt'⟩
    refine ⟨(p.toNat - ph.startPage.toNat) / 4096, ?_, ?_⟩
    · rw [List.mem_range]
      omega
    · apply BitVec.eq_of_toNat_eq
      rw [BitVec.toNat_ofNat]
      omega

/-- A segment names each of its pages once. -/
theorem pages_pairwise_ne (ph : Elf64Phdr) : ph.pages.Pairwise (· ≠ ·) := by
  have hlt := ph.endPage.isLt
  rw [Elf64Phdr.pages, List.pairwise_map]
  refine List.pairwise_lt_range.imp_of_mem ?_
  intro j k hj hk hjk heq
  rw [List.mem_range] at hj hk
  have hnat := congrArg BitVec.toNat heq
  rw [BitVec.toNat_ofNat, BitVec.toNat_ofNat] at hnat
  omega

theorem rangesOverlap_eq_false {a b c d : Word} (h : rangesOverlap a b c d = false) :
    d.toNat ≤ a.toNat ∨ b.toNat ≤ c.toNat := by
  rw [rangesOverlap, Bool.and_eq_false_iff, decide_eq_false_iff_not, decide_eq_false_iff_not,
    BitVec.lt_def, BitVec.lt_def] at h
  omega

/-- The pages of an accepted segment stay off the stack page and the guard page. -/
theorem SegmentOk.page_not_stack (h : SegmentOk len ph) (hp : p ∈ ph.pages) :
    userStackTop.toNat ≤ p.toNat ∨ p.toNat < userStackGuardVa.toNat := by
  obtain ⟨-, hge, hlt⟩ := mem_pages.mp hp
  have hwrap := h.noWrap
  have happart := rangesOverlap_eq_false h.notStack
  have htop : userStackTop.toNat = 0x40100000 := rfl
  have hguard : userStackGuardVa.toNat = 0x400fe000 := rfl
  rw [startPage_toNat] at hge
  rw [endPage_toNat] at hlt
  rw [BitVec.le_def, BitVec.toNat_add] at hwrap
  rw [BitVec.toNat_add] at happart
  have := ph.pVaddr.isLt
  have := ph.pMemsz.isLt
  omega

theorem mem_segmentPages {img : AppImage} : p ∈ segmentPages img ↔
    ∃ i < img.ehdr.ePhnum.toNat, (img.phdr i).IsLoad ∧ p ∈ (img.phdr i).pages := by
  simp only [segmentPages, List.mem_flatMap, List.mem_range]
  constructor
  · rintro ⟨i, hi, hp⟩
    split_ifs at hp with hload
    · exact ⟨i, hi, hload, hp⟩
    · cases hp
  · rintro ⟨i, hi, hload, hp⟩
    exact ⟨i, hi, by rwa [if_pos hload]⟩

/-- No page of an accepted image is mapped twice. -/
theorem Accepted.pages_apart {img : AppImage} (h : Accepted img) :
    (mappedPages img).Pairwise (· ≠ ·) := by
  rw [mappedPages, List.pairwise_cons]
  refine ⟨fun p hp heq => ?_, ?_⟩
  · obtain ⟨i, hi, hload, hpi⟩ := mem_segmentPages.mp hp
    have hstack := (h.segment i hi hload).page_not_stack hpi
    subst heq
    revert hstack
    decide
  · rw [segmentPages, List.pairwise_flatMap]
    refine ⟨fun i _ => ?_, List.pairwise_lt_range.imp_of_mem ?_⟩
    · split_ifs
      · exact pages_pairwise_ne _
      · exact List.Pairwise.nil
    · intro i j hi hj hij p hp q hq heq
      rw [List.mem_range] at hi hj
      split_ifs at hp hq with hload hload'
      · -- the two page ranges do not overlap
        have happart := rangesOverlap_eq_false (h.apart i j hij hj hload hload')
        have hp' := mem_pages.mp hp
        have hq' := mem_pages.mp hq
        subst heq
        omega
      all_goals simp at hp hq

theorem mappedPages_aligned {img : AppImage} (hp : p ∈ mappedPages img) : p.toNat % 4096 = 0 := by
  rcases List.mem_cons.mp hp with rfl | hmem
  · rfl
  · obtain ⟨i, -, -, hpi⟩ := mem_segmentPages.mp hmem
    exact (mem_pages.mp hpi).1

/-- All pages of a segment are canonical exactly when it lies in one half of the Sv39
addresses. -/
theorem pages_canonical_iff (ph : Elf64Phdr) : (∀ p ∈ ph.pages, Canonical p) ↔ ph.InSv39 := by
  have hstart := startPage_toNat ph
  have hend := endPage_toNat ph
  have hlt := ph.endPage.isLt
  constructor
  · intro h
    rw [Elf64Phdr.InSv39]
    by_contra hnot
    rw [not_or, not_or, BitVec.not_le, BitVec.lt_def] at hnot
    -- the first page from the end of the lower half on is not canonical
    set a := max ph.startPage.toNat (2 ^ 38) with ha
    have hmem : BitVec.ofNat 64 a ∈ ph.pages := by
      rw [mem_pages, BitVec.toNat_ofNat]
      omega
    have hcan := (canonical_iff _).mp (h _ hmem)
    rw [BitVec.toNat_ofNat] at hcan
    omega
  · intro h p hp
    rw [canonical_iff]
    obtain ⟨-, hge, hlt'⟩ := mem_pages.mp hp
    rcases h with h | h | h
    · rw [BitVec.le_def] at h
      omega
    · omega
    · omega

/-- The pages of an accepted image fit the page table exactly when each of its `PT_LOAD`
segments that has a page lies in one half of the Sv39 addresses. -/
theorem pagesFit_iff (img : AppImage) (h : validateExecImage img = .ok ()) :
    PagesFit img ↔ ∀ i < img.ehdr.ePhnum.toNat, (img.phdr i).IsLoad → (img.phdr i).InSv39 := by
  have haccepted := accepted_of_ok h
  constructor
  · intro hfit i hi hload
    rw [← pages_canonical_iff]
    intro p hp
    exact hfit.canonical p (List.mem_cons_of_mem _ (mem_segmentPages.mpr ⟨i, hi, hload, hp⟩))
  · intro hin
    have hcanonical : ∀ p ∈ mappedPages img, Canonical p := by
      intro p hp
      rcases List.mem_cons.mp hp with rfl | hmem
      · rw [canonical_iff]
        decide
      · obtain ⟨i, hi, hload, hpi⟩ := mem_segmentPages.mp hmem
        exact (pages_canonical_iff _).mpr (hin i hi hload) p hpi
    have hguard : Canonical userStackGuardVa := by
      rw [canonical_iff]
      decide
    refine ⟨?_, fun p hp => ⟨fun heq => ?_, fun heq => ?_⟩, hcanonical⟩
    · -- of canonical pages, only equal ones share a slot
      refine haccepted.pages_apart.imp_of_mem fun {p q} hp hq hne heq => hne ?_
      exact eq_of_leafSlot_eq (hcanonical p hp) (hcanonical q hq) (mappedPages_aligned hp)
        (mappedPages_aligned hq) heq
    · -- the validator keeps segments off the stack page, and off the guard page
      have hmem := List.mem_cons_of_mem userStackPageVa hp
      have := eq_of_leafSlot_eq (hcanonical p hmem) (hcanonical _ List.mem_cons_self)
        (mappedPages_aligned hmem) rfl heq
      obtain ⟨i, hi, hload, hpi⟩ := mem_segmentPages.mp hp
      have hstack := (haccepted.segment i hi hload).page_not_stack hpi
      rw [this] at hstack
      revert hstack
      decide
    · have hmem := List.mem_cons_of_mem userStackPageVa hp
      have := eq_of_leafSlot_eq (hcanonical p hmem) hguard (mappedPages_aligned hmem) rfl heq
      obtain ⟨i, hi, hload, hpi⟩ := mem_segmentPages.mp hp
      have hstack := (haccepted.segment i hi hload).page_not_stack hpi
      rw [this] at hstack
      revert hstack
      decide

/-! ### Some accepted images -/

/-- An image given by its bytes that are not zero. -/
def sparseImage (bytes : List (ℕ × Byte)) (len : BitVec 32) : AppImage where
  appElf a := (bytes.lookup a).getD 0
  appElfLen := len

/-- One segment of one page at `0x100000`, where the program starts. -/
def minimalImage : AppImage :=
  sparseImage [(0, 0x7f), (1, 0x45), (2, 0x4c), (3, 0x46), (26, 0x10), (32, 64), (54, 56), (56, 1),
    (64, 1), (68, 5), (82, 0x10), (105, 0x10)] 120

theorem minimalImage_accepted : validateExecImage minimalImage = .ok () := by
  decide +kernel

/-- The page of this image fits. -/
theorem minimalImage_fits : PagesFit minimalImage := by
  rw [pagesFit_iff minimalImage minimalImage_accepted]
  have hin : ∀ i < 1, (minimalImage.phdr i).endPage.toNat ≤ 2 ^ 38 := by decide +kernel
  have hnum : minimalImage.ehdr.ePhnum.toNat = 1 := by decide +kernel
  intro i hi _
  rw [hnum] at hi
  exact Or.inr (Or.inl (hin i hi))

/-- Code of four bytes at `0x100000`, where the program starts, and two bytes of data at `0x102ff0`
with room for 30 more, which reaches into the next page. -/
def twoSegments : AppImage :=
  sparseImage [(0, 0x7f), (1, 0x45), (2, 0x4c), (3, 0x46), (26, 0x10), (32, 64), (54, 56), (56, 2),
    (64, 1), (68, 5), (72, 176), (82, 0x10), (96, 4), (104, 4), (120, 1), (124, 6), (128, 180),
    (136, 0xf0), (137, 0x2f), (138, 0x10), (152, 2), (160, 32), (176, 0x73), (180, 0x6f),
    (181, 0x6b)] 182

theorem twoSegments_accepted : validateExecImage twoSegments = .ok () := by
  decide +kernel

theorem twoSegments_pages :
    segmentPages twoSegments = [0x100000#64, 0x102000#64, 0x103000#64] := by
  decide +kernel

/-- Two segments of one page, at `0x100000` and at `0x8000100000`, `2 ^ 39` bytes further. -/
def aliasedImage : AppImage :=
  sparseImage [(0, 0x7f), (1, 0x45), (2, 0x4c), (3, 0x46), (26, 0x10), (32, 64), (54, 56), (56, 2),
    (64, 1), (68, 5), (82, 0x10), (105, 0x10), (120, 1), (124, 6), (138, 0x10), (140, 0x80),
    (161, 0x10)] 176

theorem aliasedImage_accepted : validateExecImage aliasedImage = .ok () := by
  decide +kernel

theorem aliasedImage_pages :
    segmentPages aliasedImage = [0x100000#64, 0x8000100000#64] := by
  decide +kernel

/-- The validator accepts an image whose second segment is mapped over its first one. -/
theorem aliasedImage_not_fit :
    validateExecImage aliasedImage = .ok () ∧ ¬ PagesFit aliasedImage := by
  refine ⟨aliasedImage_accepted, fun hfit => ?_⟩
  have hslots := hfit.slots
  rw [mappedPages, aliasedImage_pages] at hslots
  revert hslots
  decide

end RiscvKernel
