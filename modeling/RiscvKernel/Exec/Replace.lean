import RiscvKernel.Exec.Load
import RiscvKernel.Memory.FreeOrder

/-!
# Replacing an address space

`task_exec` loads an image under a new page table and then frees the old one.

* `PrivateTree.loadImage`: the new table leads to the loaded image, also after the old one has been
  freed, and the free list has exchanged the pages of the new table for those of the old one.
* `mapsImage_of_hasImage`: which addresses the new table maps, and what they hold.
-/

namespace RiscvKernel

open ByteMemory RadixTable EntryFormat

variable {kernelEnd root p : ℕ} {m : Mem} {s : Phys} {free : List ℕ} {img : AppImage}

/-! ### Exchanging the pages -/

/-- Loading an image and then freeing the old page table. In between, only the kernel image is
written. -/
theorem PrivateTree.loadImage (h : PrivateTree kernelEnd root s p free) (hroot : kernelEnd ≤ root) :
    Outcome (free.length < 4 + 3 * (segmentPages img).length)
      (fun r => ∃ maps taken free',
        (free = taken ++ free' ∧ taken.length ≤ 4 + 3 * (segmentPages img).length) ∧ IsPage r.1 ∧
        EqOff ↑taken s.mem r.2.mem ∧
        ∀ (u : Phys) (S : Multiset ℕ), u.freeList = r.2.freeList → EqOff S r.2.mem u.mem →
          (∀ x ∈ S, x < kernelEnd) →
          let s' := RiscvKernel.freeUserPageTable kernelEnd root p u
          HasImage kernelEnd img s'.mem r.1 maps taken ∧
          EqOff (owned kernelEnd s.mem 3 p) u.mem s'.mem ∧
          ∃ free'', FreePages s' free'' ∧
            (free'' : Multiset ℕ) = ↑free' + owned kernelEnd s.mem 3 p)
      (RiscvKernel.loadImage img s) := by
  refine (loadImage_spec h.isFree h.above).mono id ?_
  rintro ⟨newPgd, t⟩ ⟨maps, taken, free', ⟨rfl, hlen⟩, hf', himage, hoff⟩
  dsimp only at hf' himage hoff ⊢
  have htaken : ∀ x ∈ taken, x ∈ taken ++ free' := fun x hx => List.mem_append_left _ hx
  have hrest : ∀ x ∈ free', x ∈ taken ++ free' := fun x hx => List.mem_append_right _ hx
  have hnew : newPgd ∈ taken := Multiset.mem_of_le himage.built.owned_le self_mem_owned
  refine ⟨maps, taken, free', ⟨rfl, hlen⟩, h.isFree.isPage _ (htaken _ hnew), hoff,
    fun u S hlist hkernel hS => ?_⟩
  have hlow : ∀ x, kernelEnd ≤ x → x ∉ S := by
    intro x hge hx
    have := hS x hx
    omega
  -- what was written so far is off the old table and the top one of the kernel
  have hwritten : EqOff (↑taken + S) s.mem u.mem := hoff.trans hkernel
  have hapart : ∀ x, kernelEnd ≤ x → x ∉ taken ++ free' → x ∉ (taken : Multiset ℕ) + S := by
    intro x hge hnot hmem
    exact (Multiset.mem_add.mp hmem).elim (fun hx => hnot (htaken x hx)) (hlow x hge)
  have hold : ∀ x ∈ owned kernelEnd s.mem 3 p, x ∉ (taken : Multiset ℕ) + S :=
    fun x hx => hapart x (h.owned_above x hx) (h.notMem_free x hx)
  have howned : owned kernelEnd u.mem 3 p = owned kernelEnd s.mem 3 p :=
    owned_eqOff hwritten h.aligned hold
  have hshares : SharesNothing u.mem p root :=
    h.shares.eqOff hwritten h.aligned h.rootAligned (hold p self_mem_owned)
      (hapart root hroot h.rootNotFree)
  have hfu : FreePages u free' := by
    have hfree := hf'.eqOff hkernel fun x hx => hlow x (h.above x (hrest x hx))
    rwa [← hlist] at hfree
  -- the old table is freed
  have hnd : ((free' : Multiset ℕ) + owned kernelEnd u.mem 3 p).Nodup := by
    rw [howned]
    refine Multiset.nodup_of_le ?_ h.nodup
    rw [← Multiset.coe_add]
    gcongr
    exact Multiset.le_add_left _ _
  have hrootOut := h.root_notMem
  rw [Multiset.mem_add, not_or] at hrootOut
  obtain ⟨free'', hf'', hfree'', hoff''⟩ := freeUserPageTable_spec hfu h.aligned h.rootAligned
    (by rw [howned]; exact hrootOut.2) hshares hnd (by rw [howned]; exact h.isPage)
  rw [howned] at hfree'' hoff''
  refine ⟨?_, hoff'', free'', hf'', hfree''⟩
  refine (himage.eqOff hkernel fun x hx => hlow x (h.above x (htaken x hx))).eqOff hoff'' ?_
  exact fun x hx howned => h.notMem_free x howned (htaken x hx)

/-! ### What the new table maps -/

/-- The permissions of a page of a segment: those of its header, for user programs. -/
structure SegmentEntry (ph : Elf64Phdr) (e : Word) : Prop where
  user : e &&& pteU ≠ 0
  read : e &&& pteR ≠ 0 ↔ ph.pFlags &&& elfPfR ≠ 0
  write : e &&& pteW ≠ 0 ↔ ph.pFlags &&& elfPfW ≠ 0
  exec : e &&& pteX ≠ 0 ↔ ph.pFlags &&& elfPfX ≠ 0

/-- The permissions of the stack page. -/
structure StackEntry (e : Word) : Prop where
  user : e &&& pteU ≠ 0
  read : e &&& pteR ≠ 0
  write : e &&& pteW ≠ 0
  notExec : e &&& pteX = 0

/-- The address lies in the stack page. -/
def InStackPage (va : Word) : Prop := userStackPageVa ≤ va ∧ va < userStackTop

/-- The address lies in a page of a segment. -/
def Elf64Phdr.InPages (ph : Elf64Phdr) (va : Word) : Prop := ph.startPage ≤ va ∧ va < ph.endPage

/-- The page table maps the stack page and the pages of the segments of the image, and no other. -/
structure MapsImage (img : AppImage) (m : Mem) (pgd : ℕ) : Prop where
  stack : ∀ va, InStackPage va →
    ∃ e, leafEntry m pgd va = some e ∧ StackEntry e ∧ m (physAddr e va) = 0
  segment : ∀ i < img.ehdr.ePhnum.toNat, (img.phdr i).IsLoad → ∀ va, (img.phdr i).InPages va →
    ∃ e, leafEntry m pgd va = some e ∧ SegmentEntry (img.phdr i) e ∧
      m (physAddr e va) = fileByte img (img.phdr i) va
  only : ∀ va, Canonical va → leafEntry m pgd va ≠ none → InStackPage va ∨
    ∃ i < img.ehdr.ePhnum.toNat, (img.phdr i).IsLoad ∧ (img.phdr i).InPages va

variable {va : Word} {x : Mapping} {maps : List Mapping} {ph : Elf64Phdr} {taken : List ℕ}

/-- The byte at an address of a mapped page. -/
theorem physAddr_entry (h : x.Ok) (va : Word) :
    physAddr x.entry va = x.frame + va.toNat % 4096 := by
  rw [physAddr, h.pteToPa_entry]

theorem pageVa_add (va : Word) : pageVa va + BitVec.ofNat 64 (va.toNat % 4096) = va := by
  apply BitVec.eq_of_toNat_eq
  rw [BitVec.toNat_add, pageVa_toNat, BitVec.toNat_ofNat]
  have := va.isLt
  omega

theorem stackEntry_of_flags (h : x.flags = pteR ||| pteW ||| pteU ||| pteV) :
    StackEntry x.entry := by
  refine ⟨?_, ?_, ?_, ?_⟩
  all_goals
    rw [Mapping.entry_and x (by decide) (by decide) (by decide), h]
    decide

theorem segmentEntry_of_flags (h : x.flags = loadSegmentFlags ph) : SegmentEntry ph x.entry := by
  refine ⟨?_, ?_, ?_, ?_⟩
  all_goals
    rw [Mapping.entry_and x (by decide) (by decide) (by decide), h, loadSegmentFlags]
    by_cases hr : ph.pFlags &&& elfPfR ≠ 0 <;> by_cases hw : ph.pFlags &&& elfPfW ≠ 0 <;>
      by_cases hx : ph.pFlags &&& elfPfX ≠ 0 <;>
        simp only [ne_eq, hr, hw, hx, not_false_iff, if_true,
        if_false] <;> decide

/-- No page belongs to two segments of an accepted image. -/
theorem Accepted.eq_of_mem_pages (h : Accepted img) {i j : ℕ} {q : Word}
    (hi : i < img.ehdr.ePhnum.toNat) (hj : j < img.ehdr.ePhnum.toNat) (hload : (img.phdr i).IsLoad)
    (hload' : (img.phdr j).IsLoad) (hq : q ∈ (img.phdr i).pages) (hq' : q ∈ (img.phdr j).pages) :
    i = j := by
  have hmem := mem_pages.mp hq
  have hmem' := mem_pages.mp hq'
  by_contra hne
  rcases Nat.lt_or_gt_of_ne hne with hlt | hlt
  · have := rangesOverlap_eq_false (h.apart i j hlt hj hload hload')
    omega
  · have := rangesOverlap_eq_false (h.apart j i hlt hi hload' hload)
    omega

/-- The segments end in the lower half of the Sv39 addresses. -/
def AppImage.Low (img : AppImage) : Prop :=
  ∀ i < img.ehdr.ePhnum.toNat, (img.phdr i).IsLoad →
    (img.phdr i).pVaddr.toNat + (img.phdr i).pMemsz.toNat ≤ 2 ^ 38

theorem AppImage.Low.pagesFit (h : img.Low) (hok : validateExecImage img = .ok ()) :
    PagesFit img := by
  rw [pagesFit_iff img hok]
  intro i hi hload
  have hend := endPage_toNat (img.phdr i)
  have := h i hi hload
  exact Or.inr (Or.inl (by omega))

/-- The page of an address in a page of a segment. -/
theorem Elf64Phdr.InPages.pageVa_mem (h : ph.InPages va) : pageVa va ∈ ph.pages := by
  have hstart := startPage_toNat ph
  have hend := endPage_toNat ph
  have hle := BitVec.le_def.mp h.1
  have hlt := BitVec.lt_def.mp h.2
  rw [mem_pages, pageVa_toNat]
  omega

theorem inPages_of_pageVa_mem (h : pageVa va ∈ ph.pages) : ph.InPages va := by
  have hend := endPage_toNat ph
  rw [mem_pages, pageVa_toNat] at h
  rw [Elf64Phdr.InPages, BitVec.le_def, BitVec.lt_def]
  omega

theorem inStackPage_iff : InStackPage va ↔ pageVa va = userStackPageVa := by
  have hlo : userStackPageVa.toNat = 0x400ff000 := rfl
  have hhi : userStackTop.toNat = 0x40100000 := rfl
  rw [InStackPage, BitVec.le_def, BitVec.lt_def, ← BitVec.toNat_inj, pageVa_toNat]
  omega

theorem mem_headerPages {i : ℕ} {q : Word} (h : q ∈ headerPages img i) :
    (img.phdr i).IsLoad ∧ q ∈ (img.phdr i).pages := by
  rw [headerPages] at h
  split_ifs at h with hload
  · exact ⟨hload, h⟩
  · cases h

/-- The stack page belongs to no segment. -/
theorem Accepted.stack_notMem (h : Accepted img) : userStackPageVa ∉ segmentPages img :=
  fun hmem => (List.pairwise_cons.mp h.pages_apart).1 _ hmem rfl

/-- A loaded image is mapped as its headers say. -/
theorem mapsImage_of_hasImage (h : HasImage kernelEnd img m p maps taken)
    (hok : validateExecImage img = .ok ()) (hlow : img.Low) : MapsImage img m p := by
  have haccepted := accepted_of_ok hok
  have hfit := hlow.pagesFit hok
  have hslots := h.slotsDiffer hfit.slots
  -- every page of the image was mapped once, and from every mapping one reads what was loaded
  have hmapped : ∀ q ∈ mappedPages img, ∃ x ∈ maps, x.va = q := by
    intro q hq
    have hmem : q ∈ maps.map Mapping.va := by rwa [h.vas, List.mem_reverse]
    exact List.mem_map.mp hmem
  have hread : ∀ x ∈ maps, ∀ va, x.va = pageVa va → leafEntry m p va = some x.entry ∧
      physAddr x.entry va = x.frame + va.toNat % 4096 := by
    intro x hx va hva
    exact ⟨leafEntry_of_mem h.built hslots hx hva, physAddr_entry (h.built.ok x hx) va⟩
  refine ⟨fun va hva => ?_, fun i hi hload va hva => ?_, fun va hcan hne => ?_⟩
  · have hstack := inStackPage_iff.mp hva
    obtain ⟨x, hx, hxva⟩ := hmapped _ List.mem_cons_self
    obtain ⟨hentry, haddr⟩ := hread x hx va (hxva.trans hstack.symm)
    rcases h.loaded x hx with hloaded | ⟨j, hj, hmem, -⟩
    · refine ⟨_, hentry, stackEntry_of_flags hloaded.flags, ?_⟩
      rw [haddr]
      exact hloaded.bytes _ (Nat.mod_lt _ (by decide))
    · obtain ⟨hload, hpage⟩ := mem_headerPages hmem
      rw [hxva] at hpage
      exact absurd (mem_segmentPages.mpr ⟨j, hj, hload, hpage⟩) haccepted.stack_notMem
  · have hmem := mem_segmentPages.mpr ⟨i, hi, hload, hva.pageVa_mem⟩
    obtain ⟨x, hx, hxva⟩ := hmapped (pageVa va) (List.mem_cons_of_mem _ hmem)
    obtain ⟨hentry, haddr⟩ := hread x hx va hxva
    rcases h.loaded x hx with hloaded | ⟨j, hj, hpage, hloaded⟩
    · rw [← hxva, hloaded.va] at hmem
      exact absurd hmem haccepted.stack_notMem
    · -- no other segment has this page
      obtain ⟨hload', hpage'⟩ := mem_headerPages hpage
      rw [hxva] at hpage'
      obtain rfl := haccepted.eq_of_mem_pages hi hj hload hload' hva.pageVa_mem hpage'
      refine ⟨_, hentry, segmentEntry_of_flags hloaded.flags, ?_⟩
      rw [haddr, hloaded.bytes _ (Nat.mod_lt _ (by decide)), hxva, pageVa_add]
  · obtain ⟨e, he⟩ := Option.ne_none_iff_exists'.mp hne
    obtain ⟨x, hx, hslot, -⟩ := exists_of_leafEntry h.built he
    have hpage : x.va ∈ mappedPages img := by
      rw [← List.mem_reverse, ← h.vas]
      exact List.mem_map_of_mem hx
    have hcanPage : Canonical (pageVa va) := by
      rw [canonical_iff] at hcan ⊢
      rw [pageVa_toNat]
      omega
    have hva : x.va = pageVa va := by
      refine eq_of_leafSlot_eq (hfit.canonical _ hpage) hcanPage (mappedPages_aligned hpage) ?_ ?_
      · rw [pageVa_toNat]
        omega
      · rw [leafSlot_pageVa, hslot]
    rw [hva] at hpage
    rcases List.mem_cons.mp hpage with hstack | hsegment
    · exact Or.inl (inStackPage_iff.mpr hstack)
    · obtain ⟨i, hi, hload, hmem⟩ := mem_segmentPages.mp hsegment
      exact Or.inr ⟨i, hi, hload, inPages_of_pageVa_mem hmem⟩

end RiscvKernel
