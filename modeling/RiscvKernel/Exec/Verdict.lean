import Mathlib.Data.Int.Bitwise
import RiscvKernel.Exec.Validate

/-!
# The validator in unbounded integers

`validate_exec_image` computes in `uint64_t`. `Unbounded` is the same list of checks over
integers that do not wrap. The two agree but in one place: the end of a segment is rounded up to a
page before the ranges of two segments are compared, and the end of a segment that reaches into the
last page of the address space is rounded to 0, so that such a segment overlaps nothing
(`validator_exact_iff`, `wrappedImage_accepted_not_unbounded`).
-/

namespace RiscvKernel

open ByteMemory

/-! ### The checks over integers -/

/-- `ranges_overlap` over integers. -/
def Overlap (startA endA startB endB : ℕ) : Prop := startA < endB ∧ startB < endA

/-- The first address after the segment. -/
def Elf64Phdr.segEnd (ph : Elf64Phdr) : ℕ := ph.pVaddr.toNat + ph.pMemsz.toNat

/-- The end of the segment, rounded up to a page. -/
def Elf64Phdr.roundedEnd (ph : Elf64Phdr) : ℕ := (ph.segEnd + 4095) / 4096 * 4096

/-- The start of the segment, rounded down to a page. -/
def Elf64Phdr.roundedStart (ph : Elf64Phdr) : ℕ := ph.pVaddr.toNat / 4096 * 4096

/-- The segment reaches into the last page of the 64-bit addresses. -/
def Elf64Phdr.InLastPage (ph : Elf64Phdr) : Prop := 2 ^ 64 - 4096 < ph.segEnd

/-- The page-rounded ranges of two segments overlap. -/
def RoundedOverlap (ph other : Elf64Phdr) : Prop :=
  Overlap ph.roundedStart ph.roundedEnd other.roundedStart other.roundedEnd

/-- The checks of one `PT_LOAD` header by itself. -/
structure SegmentFits (len : ℕ) (ph : Elf64Phdr) : Prop where
  filesz_le : ph.pFilesz.toNat ≤ ph.pMemsz.toNat
  file_le : ph.pOffset.toNat + ph.pFilesz.toNat ≤ len
  align : ph.pAlign.toNat ≠ 0 →
    Int.land (ph.pVaddr.toNat - ph.pOffset.toNat) (ph.pAlign.toNat - 1) = 0
  segEnd_lt : ph.segEnd < 2 ^ 64
  stack : ¬ Overlap ph.pVaddr.toNat ph.segEnd userStackGuardVa.toNat userStackTop.toNat
  rwPage : ¬ Overlap ph.pVaddr.toNat ph.segEnd userRwPageVa.toNat (userRwPageVa.toNat + 4096)
  roPage : ¬ Overlap ph.pVaddr.toNat ph.segEnd userRoPageVa.toNat (userRoPageVa.toNat + 4096)

/-- The checks other than those of two headers against each other. -/
structure HeadersFit (img : AppImage) : Prop where
  phentsize : img.ehdr.ePhentsize.toNat = sizeofPhdr
  table : img.ehdr.ePhoff.toNat + sizeofPhdr * img.ehdr.ePhnum.toNat ≤ img.appElfLen.toNat
  segment : ∀ i < img.ehdr.ePhnum.toNat, (img.phdr i).IsLoad →
    SegmentFits img.appElfLen.toNat (img.phdr i)
  entry : ∃ i < img.ehdr.ePhnum.toNat, (img.phdr i).IsLoad ∧
    (img.phdr i).pVaddr.toNat ≤ img.ehdr.eEntry.toNat ∧
    img.ehdr.eEntry.toNat < (img.phdr i).segEnd

/-- No two different `PT_LOAD` segments with the property overlap once rounded to pages. -/
def Apart (img : AppImage) (P : Elf64Phdr → Elf64Phdr → Prop) : Prop :=
  ∀ i < img.ehdr.ePhnum.toNat, ∀ j < img.ehdr.ePhnum.toNat, i ≠ j →
    (img.phdr i).IsLoad → (img.phdr j).IsLoad → P (img.phdr i) (img.phdr j) →
    ¬ RoundedOverlap (img.phdr i) (img.phdr j)

/-- All checks of the validator, over integers. -/
structure Unbounded (img : AppImage) : Prop where
  headers : HeadersFit img
  apart : Apart img fun _ _ => True

/-! ### One check at a time -/

variable {len : BitVec 32} {ph other : Elf64Phdr}

theorem overlap_iff {a b c d : Word} : rangesOverlap a b c d = true ↔
    Overlap a.toNat b.toNat c.toNat d.toNat := by
  simp [rangesOverlap, Overlap, BitVec.lt_def]

/-- The bits of `2 ^ 64 - 1 - m` below 64 are the bits that `m` does not have. -/
theorem and_two_pow_sub_succ {m k : ℕ} (hm : m < 2 ^ 64) (hk : k < 2 ^ 64) :
    (2 ^ 64 - (m + 1)) &&& k = Nat.ldiff k m := by
  apply Nat.eq_of_testBit_eq
  intro i
  rw [Nat.testBit_and, Nat.testBit_two_pow_sub_succ hm, Nat.testBit_ldiff]
  by_cases hi : i < 64
  · simp [hi, Bool.and_comm]
  · have hzero : k.testBit i = false :=
      Nat.testBit_lt_two_pow (hk.trans_le (Nat.pow_le_pow_right (by decide) (by omega)))
    simp [hzero]

/-- The mask test of `p_align` looks at the same bits of the difference, which may be negative. -/
theorem align_iff {a b c : Word} (hc : c.toNat ≠ 0) : (a - b) &&& (c - 1#64) = 0 ↔
    Int.land (a.toNat - b.toNat) (c.toNat - 1) = 0 := by
  have ha := a.isLt
  have hb := b.isLt
  have hclt := c.isLt
  obtain ⟨k, hk⟩ : ∃ k, c.toNat = k + 1 := ⟨c.toNat - 1, by omega⟩
  have hmask : (c - 1#64).toNat = k := by
    rw [BitVec.toNat_sub]
    simp only [BitVec.toNat_ofNat]
    omega
  rw [← BitVec.toNat_inj, BitVec.toNat_and, hmask, hk, BitVec.toNat_sub, Nat.cast_succ,
    add_sub_cancel_right]
  by_cases hle : b.toNat ≤ a.toNat
  · obtain ⟨m, hm⟩ : ∃ m, a.toNat = b.toNat + m := ⟨a.toNat - b.toNat, by omega⟩
    rw [show (2 ^ 64 - b.toNat + a.toNat) % 2 ^ 64 = m by omega,
      show (a.toNat : ℤ) - b.toNat = (m : ℕ) by omega]
    exact Int.natCast_eq_zero.symm
  · obtain ⟨m, hm⟩ : ∃ m, b.toNat = a.toNat + (m + 1) := ⟨b.toNat - a.toNat - 1, by omega⟩
    rw [show (2 ^ 64 - b.toNat + a.toNat) % 2 ^ 64 = 2 ^ 64 - (m + 1) by omega,
      show (a.toNat : ℤ) - b.toNat = Int.negSucc m by omega,
      and_two_pow_sub_succ (by omega) (by omega)]
    exact Int.natCast_eq_zero.symm

/-- A check in front of the others. -/
theorem throw_or_eq_ok_iff {c : Prop} [Decidable c] {e : String} {x : Except String Unit} :
    (if c then throw e else x) = .ok () ↔ ¬ c ∧ x = .ok () := by
  by_cases h : c
  · simp [h, throw, throwThe, MonadExceptOf.throw]
  · simp [h]

/-- The checks of one header agree. -/
theorem checkSegment_eq_ok_iff :
    checkSegment len ph = .ok () ↔ SegmentFits len.toNat ph := by
  have hlen : (len.setWidth 64).toNat = len.toNat := by
    rw [BitVec.toNat_setWidth]
    exact Nat.mod_eq_of_lt (len.isLt.trans (by decide))
  have hfile : ph.pOffset + ph.pFilesz ≤ len.setWidth 64 ∧ ph.pOffset ≤ ph.pOffset + ph.pFilesz ↔
      ph.pOffset.toNat + ph.pFilesz.toNat ≤ len.toNat := by
    rw [le_add_iff, BitVec.le_def, hlen, BitVec.toNat_add]
    have := len.isLt
    omega
  have hnoWrap : ph.pVaddr ≤ ph.pVaddr + ph.pMemsz ↔ ph.segEnd < 2 ^ 64 := le_add_iff
  have halign : ¬ (ph.pAlign ≠ 0 ∧ (ph.pVaddr - ph.pOffset) &&& (ph.pAlign - 1#64) ≠ 0) ↔
      (ph.pAlign.toNat ≠ 0 →
        Int.land (ph.pVaddr.toNat - ph.pOffset.toNat) (ph.pAlign.toNat - 1) = 0) := by
    rw [not_and, not_not, Ne, Ne, ← BitVec.toNat_inj]
    exact forall_congr' fun hne => align_iff hne
  rw [checkSegment]
  dsimp only
  rw [throw_or_eq_ok_iff, throw_or_eq_ok_iff, throw_or_eq_ok_iff, throw_or_eq_ok_iff,
    throw_or_eq_ok_iff, halign, not_or, not_or, not_or, gt_iff_lt, gt_iff_lt, BitVec.not_lt,
    BitVec.not_lt, BitVec.not_lt, BitVec.not_lt, hfile, hnoWrap]
  -- without a wrap the reserved ranges are compared with the same end
  have hreserved : ph.segEnd < 2 ^ 64 → ∀ c d,
      (¬ rangesOverlap ph.pVaddr (ph.pVaddr + ph.pMemsz) c d
      = true ↔ ¬ Overlap ph.pVaddr.toNat ph.segEnd c.toNat d.toNat) := by
    intro h c d
    rw [overlap_iff, BitVec.toNat_add, ← Elf64Phdr.segEnd, Nat.mod_eq_of_lt h]
  constructor
  · rintro ⟨hsize, hfile, halign, hlt, ⟨hstack, hrw, hro⟩, -⟩
    rw [hreserved hlt] at hstack hrw hro
    exact ⟨hsize, hfile, halign, hlt, hstack, hrw, hro⟩
  · intro h
    refine ⟨h.filesz_le, h.file_le, h.align, h.segEnd_lt, ?_, rfl⟩
    rw [hreserved h.segEnd_lt, hreserved h.segEnd_lt, hreserved h.segEnd_lt]
    exact ⟨h.stack, h.rwPage, h.roPage⟩

/-- The end of a segment is rounded to the end of its last page, unless this is `2 ^ 64`. -/
theorem endPage_toNat_of_lt (h : ph.segEnd < 2 ^ 64) :
    ph.endPage.toNat = if ph.segEnd ≤ 2 ^ 64 - 4096 then ph.roundedEnd else 0 := by
  rw [endPage_toNat, Elf64Phdr.roundedEnd]
  rw [Elf64Phdr.segEnd] at h ⊢
  split_ifs with hlast <;> omega

/-- The comparison of two segments agrees, unless one of them reaches into the last page. -/
theorem rangesOverlap_pages_iff (h : ph.segEnd < 2 ^ 64) (h' : other.segEnd < 2 ^ 64) :
    rangesOverlap ph.startPage ph.endPage other.startPage other.endPage = true ↔
      ¬ ph.InLastPage ∧ ¬ other.InLastPage ∧ RoundedOverlap ph other := by
  rw [overlap_iff, startPage_toNat, startPage_toNat, endPage_toNat_of_lt h,
    endPage_toNat_of_lt h', Elf64Phdr.InLastPage, Elf64Phdr.InLastPage, RoundedOverlap, Overlap,
    Overlap, Elf64Phdr.roundedStart, Elf64Phdr.roundedStart]
  split_ifs <;> omega

/-- The check of one header against another agrees below the last page. -/
theorem checkAgainst_eq_ok_iff (h : ph.segEnd < 2 ^ 64)
    (h' : other.IsLoad → other.segEnd < 2 ^ 64) :
    checkAgainst ph other = .ok () ↔
      (other.IsLoad → ¬ ph.InLastPage ∧ ¬ other.InLastPage → ¬ RoundedOverlap ph other) := by
  rw [checkAgainst]
  by_cases hload : other.IsLoad
  · rw [if_neg (not_not.mpr hload), throw_or_eq_ok_iff, rangesOverlap_pages_iff h (h' hload)]
    simp [hload, pure, Except.pure]
  · rw [if_pos hload]
    simp [hload, pure, Except.pure]

/-! ### The whole validator -/

variable {img : AppImage}

theorem RoundedOverlap.symm (h : RoundedOverlap ph other) : RoundedOverlap other ph := And.symm h

/-- The validator makes all checks, but compares only segments that end below the last page. -/
theorem validateExecImage_iff_headersFit (hlen : sizeofEhdr ≤ img.appElfLen.toNat) :
    validateExecImage img = .ok () ↔
      HeadersFit img ∧ Apart img fun ph other => ¬ ph.InLastPage ∧ ¬ other.InLastPage := by
  have hentry : ∀ i, (img.phdr i).segEnd < 2 ^ 64 →
      ((img.phdr i).HasEntry img.ehdr.eEntry ↔ (img.phdr i).IsLoad ∧
        (img.phdr i).pVaddr.toNat ≤ img.ehdr.eEntry.toNat ∧
        img.ehdr.eEntry.toNat < (img.phdr i).segEnd) := by
    intro i h
    rw [Elf64Phdr.HasEntry, BitVec.le_def, BitVec.lt_def, BitVec.toNat_add, ← Elf64Phdr.segEnd,
      Nat.mod_eq_of_lt h]
  rw [validateExecImage_eq_ok_iff, tableOk_iff, and_iff_right hlen]
  constructor
  · rintro ⟨hsize, htable, hturns, i, hi, hload, hhas⟩
    have hsegment : ∀ i < img.ehdr.ePhnum.toNat, (img.phdr i).IsLoad →
        SegmentFits img.appElfLen.toNat (img.phdr i) :=
      fun i hi hload => checkSegment_eq_ok_iff.mp (hturns i hi hload).1
    have hi' := (hentry i (hsegment i hi hload).segEnd_lt).mp ⟨hload, hhas⟩
    refine ⟨⟨hsize, htable, hsegment, i, hi, hi'⟩, ?_⟩
    have hlt : ∀ i < img.ehdr.ePhnum.toNat, ∀ j < img.ehdr.ePhnum.toNat, i < j →
        (img.phdr i).IsLoad → (img.phdr j).IsLoad →
        ¬ (img.phdr i).InLastPage ∧ ¬ (img.phdr j).InLastPage →
        ¬ RoundedOverlap (img.phdr i) (img.phdr j) := by
      intro i hi j hj hij hload hload'
      exact (checkAgainst_eq_ok_iff (hsegment i hi hload).segEnd_lt
        fun hload' => (hsegment j hj hload').segEnd_lt).mp ((hturns i hi hload).2 j hij hj) hload'
    intro i hi j hj hne hload hload' hlast hover
    -- the source compares each header with the later ones only
    rcases Nat.lt_or_gt_of_ne hne with hij | hji
    · exact hlt i hi j hj hij hload hload' hlast hover
    · exact hlt j hj i hi hji hload' hload hlast.symm hover.symm
  · rintro ⟨h, hapart⟩
    obtain ⟨i, hi, hload, hhas⟩ := h.entry
    refine ⟨h.phentsize, h.table, ?_, i, hi,
      (hentry i (h.segment i hi hload).segEnd_lt).mpr ⟨hload, hhas⟩⟩
    intro i hi hload
    refine ⟨checkSegment_eq_ok_iff.mpr (h.segment i hi hload), fun j hij hj => ?_⟩
    rw [checkAgainst_eq_ok_iff (h.segment i hi hload).segEnd_lt
      fun hload' => (h.segment j hj hload').segEnd_lt]
    exact fun hload' => hapart i hi j hj (by omega) hload hload'

/-- The validator decides the checks over integers exactly when, all other checks passing, no
segment that reaches into the last page of the address space overlaps another one. -/
theorem validator_exact_iff (hlen : sizeofEhdr ≤ img.appElfLen.toNat) :
    (validateExecImage img = .ok () ↔ Unbounded img) ↔
      (HeadersFit img → (Apart img fun ph other => ¬ ph.InLastPage ∧ ¬ other.InLastPage) →
        Apart img fun ph other => ph.InLastPage ∨ other.InLastPage) := by
  rw [validateExecImage_iff_headersFit hlen]
  constructor
  · intro h hheaders hapart i hi j hj hne hload hload' _
    exact (h.mp ⟨hheaders, hapart⟩).apart i hi j hj hne hload hload' trivial
  · intro h
    constructor
    · rintro ⟨hheaders, hapart⟩
      refine ⟨hheaders, fun i hi j hj hne hload hload' _ => ?_⟩
      by_cases hlast : (img.phdr i).InLastPage ∨ (img.phdr j).InLastPage
      · exact h hheaders hapart i hi j hj hne hload hload' hlast
      · exact hapart i hi j hj hne hload hload' (not_or.mp hlast)
    · exact fun hun => ⟨hun.headers, fun i hi j hj hne hload hload' _ =>
        hun.apart i hi j hj hne hload hload' trivial⟩

/-- An image with two segments, which end far below the last page. -/
theorem validator_exact_twoSegments :
    validateExecImage twoSegments = .ok () ↔ Unbounded twoSegments := by
  have hnum : twoSegments.ehdr.ePhnum.toNat = 2 := by decide +kernel
  have hfar : ∀ i < 2, ∀ j < 2, i ≠ j →
      ¬ RoundedOverlap (twoSegments.phdr i) (twoSegments.phdr j) := by
    simp only [RoundedOverlap, Overlap]
    decide +kernel
  refine (validator_exact_iff (by decide)).mpr fun _ _ i hi j hj hne _ _ _ => ?_
  rw [hnum] at hi hj
  exact hfar i hi j hj hne

/-- Two segments with the same page, the last one of the address space. -/
def wrappedImage : AppImage :=
  sparseImage [(0, 0x7f), (1, 0x45), (2, 0x4c), (3, 0x46), (25, 0xf0), (26, 0xff), (27, 0xff),
    (28, 0xff), (29, 0xff), (30, 0xff), (31, 0xff), (32, 64), (54, 56), (56, 2), (64, 1), (68, 5),
    (81, 0xf0), (82, 0xff), (83, 0xff), (84, 0xff), (85, 0xff), (86, 0xff), (87, 0xff), (104, 0x10),
    (120, 1), (124, 5), (137, 0xf0), (138, 0xff), (139, 0xff), (140, 0xff), (141, 0xff),
    (142, 0xff), (143, 0xff), (160, 0x10)] 176

/-- The validator accepts an image with two overlapping segments. -/
theorem wrappedImage_accepted_not_unbounded :
    validateExecImage wrappedImage = .ok () ∧ ¬ Unbounded wrappedImage := by
  refine ⟨by decide +kernel, fun h => ?_⟩
  have hnum : wrappedImage.ehdr.ePhnum.toNat = 2 := by decide +kernel
  have hover : RoundedOverlap (wrappedImage.phdr 0) (wrappedImage.phdr 1) := by
    rw [RoundedOverlap, Overlap]
    decide +kernel
  refine h.apart 0 (by rw [hnum]; decide) 1 (by rw [hnum]; decide) (by decide) ?_ ?_ trivial hover
  · decide +kernel
  · decide +kernel

end RiscvKernel
