import RiscvKernel.System.Abstraction
import RiscvKernel.System.ExecImage

/-!
# The address spaces that programs start in

* `imageSpace_of_mapsImage`: a page table with the image in it is the address space that the headers
  of the image describe, at every one of the `2 ^ 39` addresses.
* `bootSpace_of_bootMapped`: so is the page table that `init_user_address_space` fills.
-/

namespace RiscvKernel

open ByteMemory RadixTable Riscv

variable {n : ℕ} {L : Layout n} {img : AppImage} {m : Mem} {p : ℕ} {va e : Word} {ph : Elf64Phdr}

/-! ### Rights -/

theorem entryRights_of_user (h : e &&& pteU ≠ 0) :
    entryRights e = ⟨e &&& pteR ≠ 0, e &&& pteW ≠ 0, e &&& pteX ≠ 0⟩ := by
  simp only [entryRights, h, ne_eq, not_false_iff, true_and]

theorem SegmentEntry.rights_eq (h : SegmentEntry ph e) : entryRights e = ph.rights := by
  rw [entryRights_of_user h.user, Elf64Phdr.rights]
  simp only [h.read, h.write, h.exec]

theorem StackEntry.rights_eq (h : StackEntry e) : entryRights e = ⟨true, true, false⟩ := by
  rw [entryRights_of_user h.user]
  simp only [h.read, h.write, h.notExec, ne_eq, not_false_iff, not_true, decide_true, decide_false]

/-! ### Segments -/

theorem AppImage.segmentAt_eq_some (h : img.segmentAt va = some ph) :
    ∃ i < img.ehdr.ePhnum.toNat, img.phdr i = ph ∧ ph.IsLoad ∧ ph.InPages va := by
  have hfound := List.find?_some h
  rw [decide_eq_true_eq] at hfound
  obtain ⟨i, hi, heq⟩ := List.mem_map.mp (List.mem_of_find?_eq_some h)
  exact ⟨i, List.mem_range.mp hi, heq, hfound⟩

theorem AppImage.segmentAt_eq_none (h : img.segmentAt va = none) {i : ℕ}
    (hi : i < img.ehdr.ePhnum.toNat) (hload : (img.phdr i).IsLoad) :
    ¬ (img.phdr i).InPages va := by
  intro hva
  have hnone := List.find?_eq_none.mp h (img.phdr i) (List.mem_map_of_mem (List.mem_range.mpr hi))
  exact hnone (decide_eq_true ⟨hload, hva⟩)

/-- The pages of the segments lie in the lower half of the Sv39 addresses. -/
theorem AppImage.Low.lt_of_inPages (h : img.Low) {i : ℕ} (hi : i < img.ehdr.ePhnum.toNat)
    (hload : (img.phdr i).IsLoad) (hva : (img.phdr i).InPages va) : va.toNat < 2 ^ 38 := by
  have hend := endPage_toNat (img.phdr i)
  have hlt := BitVec.lt_def.mp hva.2
  have := h i hi hload
  omega

/-! ### The image -/

/-- Of the addresses with the same 39 bits one is canonical. -/
theorem exists_canonical (a : BitVec 39) : ∃ va : Word, Canonical va ∧
    (a.setWidth 64).toNat % 2 ^ 39 = va.toNat % 2 ^ 39 ∧
    (va.toNat < 2 ^ 38 → a.setWidth 64 = va) := by
  have ha := a.isLt
  have hwide : (a.setWidth 64).toNat = a.toNat := by
    rw [BitVec.toNat_setWidth]
    omega
  -- the lower half
  by_cases hlow : a.toNat < 2 ^ 38
  · refine ⟨a.setWidth 64, (canonical_iff _).mpr (Or.inl ?_), rfl, fun _ => rfl⟩
    rwa [hwide]
  · -- the upper half
    have hva : (BitVec.ofNat 64 (a.toNat + (2 ^ 64 - 2 ^ 39))).toNat
        = a.toNat + (2 ^ 64 - 2 ^ 39) := by
      rw [BitVec.toNat_ofNat]
      omega
    refine ⟨BitVec.ofNat 64 (a.toNat + (2 ^ 64 - 2 ^ 39)), (canonical_iff _).mpr (Or.inr ?_), ?_,
      fun h => ?_⟩
    · rw [hva]
      omega
    · rw [hva, hwide]
      omega
    · rw [hva] at h
      omega

/-- The address space of a program that `task_exec` has loaded. -/
theorem imageSpace_of_mapsImage (h : MapsImage img m p) (hlow : img.Low) :
    tableSpace m p = imageSpace img := by
  funext a
  rw [tableSpace, imageSpace, cellAt]
  split_ifs with hstack
  · obtain ⟨e, he, hentry, hbyte⟩ := h.stack _ hstack
    rw [he, Option.map_some, hentry.rights_eq, hbyte]
  · cases hsegment : img.segmentAt (a.setWidth 64) with
    | some ph =>
      obtain ⟨i, hi, rfl, hload, hva⟩ := AppImage.segmentAt_eq_some hsegment
      obtain ⟨e, he, hentry, hbyte⟩ := h.segment i hi hload _ hva
      rw [he, Option.map_some, Option.map_some, hentry.rights_eq, hbyte]
    | none =>
      rw [Option.map_none, Option.map_eq_none_iff]
      by_contra hne
      -- what is mapped belongs to the stack page or to a segment, which are in the lower half
      obtain ⟨va, hcan, hmod, heq⟩ := exists_canonical a
      rw [leafEntry_congr hmod] at hne
      rcases h.only va hcan hne with hva | ⟨i, hi, hload, hva⟩
      · have htop : userStackTop.toNat = 0x40100000 := rfl
        have hlt := BitVec.lt_def.mp hva.2
        exact hstack (heq (by omega) ▸ hva)
      · rw [heq (hlow.lt_of_inPages hi hload hva)] at hsegment
        exact AppImage.segmentAt_eq_none hsegment hi hload hva

/-! ### The first program -/

/-- The rights are those of the flags that were mapped. -/
theorem entryRights_entry (x : Mapping) : entryRights x.entry = entryRights x.flags := by
  have hbit : ∀ bit : Word, bit &&& 0x3FF#64 = bit → pteA &&& bit = 0#64 → pteD &&& bit = 0#64 →
      x.entry &&& bit = x.flags &&& bit := fun _ => x.entry_and
  rw [entryRights, entryRights, hbit pteU (by decide) (by decide) (by decide),
    hbit pteR (by decide) (by decide) (by decide), hbit pteW (by decide) (by decide) (by decide),
    hbit pteX (by decide) (by decide) (by decide)]

/-- The pages of a range of pages. -/
theorem pageVa_mem_rangePages {start stop : ℕ} (hstart : start % 4096 = 0) (hlo : start ≤ va.toNat)
    (hhi : va.toNat < stop) : pageVa va ∈ rangePages start stop := by
  have hpage := pageVa_toNat va
  have hlt := va.isLt
  rw [rangePages, List.mem_reverse, List.mem_map]
  refine ⟨(va.toNat - start) / 4096, List.mem_range.mpr (by omega), BitVec.eq_of_toNat_eq ?_⟩
  rw [hpage, BitVec.toNat_ofNat]
  omega

/-- Where the first program finds something. -/
theorem mem_initialPages (L : Layout n) (va : Word) :
    pageVa va ∈ [userRoPageVa, userRwPageVa] ++ userStackPageVa ::
      (rangePages L.textEnd L.rodataEnd ++ rangePages textStart L.textEnd) ↔
    (textStart ≤ va.toNat ∧ va.toNat < L.textEnd) ∨
      (L.textEnd ≤ va.toNat ∧ va.toNat < L.rodataEnd) ∨
      (InStackPage va ∨ pageVa va = userRwPageVa) ∨ pageVa va = userRoPageVa := by
  have hal : L.textEnd % 4096 = 0 := L.textEnd_aligned
  have hal' : L.rodataEnd % 4096 = 0 := L.rodataEnd_aligned
  have htext : textStart % 4096 = 0 := by decide
  have hend := L.rodataEnd_le
  have hrodata := L.rodata_le
  have hram : ramEnd = 0x88000000 := rfl
  have hpage := pageVa_toNat va
  -- a page is in a range of whole pages if one of its addresses is
  have hrange : ∀ start stop, start % 4096 = 0 → stop % 4096 = 0 → stop < 2 ^ 64 →
      (pageVa va ∈ rangePages start stop ↔ start ≤ va.toNat ∧ va.toNat < stop) := by
    intro start stop hstart hstop hlt
    constructor
    · intro hmem
      have := mem_rangePages hlt hmem
      omega
    · rintro ⟨hlo, hhi⟩
      exact pageVa_mem_rangePages hstart hlo hhi
  simp only [List.cons_append, List.nil_append, List.mem_cons, List.mem_append,
    hrange _ _ hal hal' (by omega), hrange _ _ htext hal (by omega), inStackPage_iff]
  tauto

section Boot

variable {stackPa : ℕ} {maps : List Mapping} {used : Multiset ℕ} {x : Mapping} {a : BitVec 39}

/-- An entry that is there was mapped at the page of the address. -/
theorem InitialSpace.exists_mapping (h : InitialSpace L m p stackPa maps used)
    (hne : leafEntry m p (a.setWidth 64) ≠ none) : ∃ x ∈ maps, x.va = pageVa (a.setWidth 64) := by
  -- of the addresses with these 39 bits, the canonical one is looked at
  obtain ⟨va, hcan, hmod, heq⟩ := exists_canonical a
  rw [leafEntry_congr hmod] at hne
  obtain ⟨e, he⟩ := Option.ne_none_iff_exists'.mp hne
  obtain ⟨x, hx, hslot, -⟩ := exists_of_leafEntry h.built he
  have huser := h.user x hx
  have hcanPage : Canonical (pageVa va) := by
    rw [canonical_iff] at hcan ⊢
    rw [pageVa_toNat]
    omega
  have hxva : x.va = pageVa va := by
    refine eq_of_leafSlot_eq ((canonical_iff _).mpr (Or.inl huser.low)) hcanPage huser.aligned ?_ ?_
    · rw [pageVa_toNat]
      omega
    · rw [leafSlot_pageVa, hslot]
  have hlt := huser.low
  rw [hxva, pageVa_toNat] at hlt
  rw [heq (by omega)]
  exact ⟨x, hx, hxva⟩

/-- A page that was mapped holds what the first program finds there. -/
theorem InitialSpace.cell_eq (h : InitialSpace L m p stackPa maps used) (hx : x ∈ maps)
    (hpage : BootPage L m x) (hxva : x.va = pageVa (a.setWidth 64)) :
    tableSpace m p a = bootSpace L m a := by
  have htext := L.text_le
  have hstart : textStart % 4096 = 0 := by decide
  have hal : L.textEnd % 4096 = 0 := L.textEnd_aligned
  have hlow : textStart = 0x80000000 := rfl
  have hrx : entryRights (pteR ||| pteX ||| pteU ||| pteV) = ⟨true, false, true⟩ := by decide
  have hronly : entryRights (pteR ||| pteU ||| pteV) = ⟨true, false, false⟩ := by decide
  have hrwonly : entryRights (pteR ||| pteW ||| pteU ||| pteV) = ⟨true, true, false⟩ := by decide
  have hin := (mem_initialPages L (a.setWidth 64)).mp (by
    rw [← h.vas, List.mem_map]
    exact ⟨x, hx, hxva⟩)
  have hva := pageVa_toNat (a.setWidth 64)
  obtain ⟨hflags, hcontents⟩ := hpage
  rw [hxva] at hflags hcontents
  rw [tableSpace, bootSpace, cellAt, leafEntry_of_mem h.built h.slotsDiffer hx hxva,
    Option.map_some, entryRights_entry, hflags, bootFlags, physAddr_entry (h.user x hx).ok]
  generalize a.setWidth 64 = va at hva hxva hcontents hin ⊢
  -- the text, the read-only data, the writable pages, and the read-only page
  rcases hin with hin | hin | hin | hin
  · have hin' : textStart ≤ (pageVa va).toNat ∧ (pageVa va).toNat < L.textEnd := by omega
    rw [if_pos hin'.1] at hcontents
    have hself : x.frame + va.toNat % 4096 = va.toNat := by omega
    rw [if_pos hin', if_pos hin, hrx, hself]
  · have hin' : ¬ (textStart ≤ (pageVa va).toNat ∧ (pageVa va).toNat < L.textEnd) := by omega
    have hlo : L.textEnd ≤ (pageVa va).toNat := by omega
    rw [if_pos (by omega)] at hcontents
    have hself : x.frame + va.toNat % 4096 = va.toNat := by omega
    rw [if_neg hin', if_pos (Or.inl hlo), if_neg (by omega), if_pos hin, hronly, hself]
  · have heq : pageVa va = userStackPageVa ∨ pageVa va = userRwPageVa := by
      rwa [← inStackPage_iff]
    have hbelow : (pageVa va).toNat < textStart := by
      rcases heq with heq | heq <;> rw [heq] <;> decide
    have hne : pageVa va ≠ userRoPageVa := by
      rcases heq with heq | heq <;> rw [heq] <;> decide
    rw [if_neg (by omega)] at hcontents
    rw [if_neg (by omega), if_neg (not_or.mpr ⟨by omega, hne⟩), if_neg (by omega),
      if_neg (by omega), if_pos hin, hrwonly, hcontents.2 _ (Nat.mod_lt _ (by decide))]
  · have hbelow : (pageVa va).toNat < textStart := by
      rw [hin]
      decide
    have hnot : ¬ (InStackPage va ∨ pageVa va = userRwPageVa) := by
      rw [inStackPage_iff, hin]
      decide
    rw [if_neg (by omega)] at hcontents
    rw [if_neg (by omega), if_pos (Or.inr hin), if_neg (by omega), if_neg (by omega), if_neg hnot,
      if_pos hin, hronly, hcontents.2 _ (Nat.mod_lt _ (by decide))]

end Boot

/-- The address space that the first program starts in. -/
theorem bootSpace_of_bootMapped (h : BootMapped L m p) : tableSpace m p = bootSpace L m := by
  obtain ⟨stackPa, maps, used, hspace, hpages⟩ := h
  funext a
  by_cases hmapped : ∃ x ∈ maps, x.va = pageVa (a.setWidth 64)
  · obtain ⟨x, hx, hxva⟩ := hmapped
    exact hspace.cell_eq hx (hpages x hx) hxva
  · have hnone : tableSpace m p a = none := by
      rw [tableSpace, cellAt, Option.map_eq_none_iff]
      by_contra hne
      exact hmapped (hspace.exists_mapping hne)
    -- the first program has nothing at any other page
    have hout := mt (mem_initialPages L (a.setWidth 64)).mpr (by rwa [← hspace.vas, List.mem_map])
    rw [not_or, not_or, not_or] at hout
    rw [hnone, bootSpace, if_neg hout.1, if_neg hout.2.1, if_neg hout.2.2.1, if_neg hout.2.2.2]

end RiscvKernel
