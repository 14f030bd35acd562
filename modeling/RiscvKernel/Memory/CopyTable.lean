import RiscvKernel.Memory.Mmu

/-!
# Copying a user page table

`copy_user_page_table` copies a whole tree into free pages. Each of its three loops is the loop
of `copyEntries`, over the entry copied by the body of that loop:

* `copiesTable_copyLeaf`, `copiesTable_copyMiddle`: the inner loops copy a leaf table and a
  middle table;
* `copyUserPageTable_spec`: the whole function returns the copy of the source, made of the
  first free pages, and hangs only if there are fewer of them than pages in the source.

The outer loop shares the entries that are equal to those of the kernel's own table. The
specification asks that such entries are not valid, which is so for every table the kernel
builds for a task.
-/

namespace RiscvKernel

open ByteMemory RadixTable EntryFormat

/-- The low ten bits of an entry, its flags. -/
def pteFlags (e : Word) : Word := e &&& 0x3FF#64

theorem toNat_pteFlags_lt (e : Word) : (pteFlags e).toNat < 2 ^ 10 := by
  rw [pteFlags, BitVec.toNat_and]
  exact Nat.lt_of_le_of_lt Nat.and_le_right (by decide)

theorem pteFlags_valid (e : Word) : pteFlags e &&& pteV = e &&& pteV := by
  rw [pteFlags, BitVec.and_assoc]
  rfl

theorem pteFlags_paToPte (pa e : Word) : pteFlags (paToPte pa (pteFlags e)) = pteFlags e := by
  rw [pteFlags, paToPte_and_flags, pteFlags, BitVec.and_assoc, BitVec.and_self]

/-! ### One entry -/

/-- The pages the copy may use: the destination and the free pages are different, and none of
them is in the source. -/
structure CopyReady (s : Phys) (free : List ℕ) (h src dst : ℕ) : Prop where
  isFree : FreePages s free
  srcAligned : PageAligned src
  dstAligned : PageAligned dst
  nodup : ({dst} + (free : Multiset ℕ)).Nodup
  apart : ∀ x ∈ sv39.pages s.mem (h + 1) src, x ∉ {dst} + (free : Multiset ℕ)

/-- The body of a copying loop copies entry `i`. -/
def CopiesEntry (h : ℕ) (body : Phys → ℕ → Option Phys) (src dst : ℕ) (s : Phys)
    (free : List ℕ) (i : ℕ) : Prop :=
  Outcome (free.length < (sv39.pagesBelow s.mem h (loadWord s.mem (src + 8 * i))).card)
    (fun s' => ∃ new free' : List ℕ, free = new ++ free' ∧ FreePages s' free' ∧
      sv39.EntryCopied pteFlags s.mem s'.mem h src dst i ↑new) (body s i)

/-- The loop over a body copies a table of height `h + 1`. -/
def CopiesTable (h : ℕ) (body : ℕ → ℕ → Phys → ℕ → Option Phys) : Prop :=
  ∀ s free src dst, CopyReady s free h src dst → (∀ b < 4096, s.mem (dst + b) = 0) →
    Outcome (free.length + 1 < (sv39.pages s.mem (h + 1) src).card)
      (fun s' => ∃ new free' : List ℕ, free = new ++ free' ∧ FreePages s' free' ∧
        sv39.TableCopied pteFlags s.mem s'.mem h src dst ↑new)
      (forEntries (body src dst) s)

variable {s : Phys} {free : List ℕ} {h src dst i : ℕ}

/-- An entry without a child stays an entry without a child. -/
theorem entryCopied_of_none {m m' : Mem} (hm : EqOff {dst} m m')
    (hothers : ∀ j < sv39.entries, j ≠ i → loadWord m' (dst + 8 * j) = loadWord m (dst + 8 * j))
    (hsrc : sv39.child (loadWord m (src + 8 * i)) = none)
    (hdst : sv39.child (loadWord m' (dst + 8 * i)) = none) :
    sv39.EntryCopied pteFlags m m' h src dst i ↑([] : List ℕ) where
  eqOff := hm.mono (by simp)
  others := hothers
  below := by rw [pagesBelow_of_none hdst, Multiset.coe_nil]
  same := Or.inl ⟨hsrc, hdst⟩

theorem copiesEntry_of_none {body : Phys → ℕ → Option Phys} (hf : FreePages s free)
    (hbody : body s i = some s) (hsrc : sv39.child (loadWord s.mem (src + 8 * i)) = none)
    (hdst : loadWord s.mem (dst + 8 * i) = 0#64) : CopiesEntry h body src dst s free i := by
  rw [CopiesEntry, hbody]
  refine ⟨[], free, rfl, hf, entryCopied_of_none (EqOff.refl _ _) (fun _ _ _ => rfl) hsrc ?_⟩
  rw [hdst, sv39.zero]

/-- The body of the innermost loop copies its entry. -/
theorem copiesEntry_copyLeaf (hr : CopyReady s free 0 src dst) (hi : i < sv39.entries)
    (hdst : loadWord s.mem (dst + 8 * i) = 0#64) :
    CopiesEntry 0 (copyLeaf src dst) src dst s free i := by
  by_cases hv : loadWord s.mem (src + 8 * i) &&& pteV ≠ 0
  swap
  · apply copiesEntry_of_none hr.isFree _ (sv39_child_of_not_valid hv) hdst
    rw [copyLeaf]
    exact if_neg hv
  set e := loadWord s.mem (src + 8 * i) with he
  have hq := sv39_child_of_valid hv
  have hframe : (pteToPa e).toNat ∈ sv39.pages s.mem 1 src := by
    refine Multiset.mem_of_le (pagesBelow_le hi) ?_
    rw [pagesBelow_of_some hq, pages_zero]
    exact Multiset.mem_singleton_self _
  rw [CopiesEntry, copyLeaf]
  dsimp only
  rw [← he, if_pos hv, pagesBelow_of_some hq, pages_zero, Multiset.card_singleton]
  refine (allocPage_spec hr.isFree).bind ?_
  rintro ⟨d, t⟩ ⟨free₁, rfl, hf₁, hoff, hz⟩
  have hd : IsPage d := hr.isFree.isPage _ List.mem_cons_self
  -- the frame, the source and the destination are all different from the new page
  have hin : ∀ x, x ∈ sv39.pages s.mem 1 src → x ≠ d ∧ x ≠ dst := by
    intro x hx
    have := hr.apart x hx
    simp only [Multiset.mem_add, Multiset.mem_singleton, Multiset.mem_coe, List.mem_cons,
      not_or] at this
    exact ⟨this.2.1, this.1⟩
  have hnd := hr.nodup
  rw [Multiset.singleton_add, Multiset.nodup_cons, Multiset.mem_coe, List.mem_cons,
    not_or] at hnd
  have hcopy : EqOff {d} t.mem (copyPage (pteToPa e).toNat d t.mem) :=
    eqOff_copyPage _ (pteToPa_aligned e) hd.aligned (hin _ hframe).1
  have hword : loadWord (copyPage (pteToPa e).toNat d t.mem) (src + 8 * i) = e := by
    have hne : src ∉ ({d} : Multiset ℕ) := by simpa using (hin src self_mem_nodes).1
    rw [hcopy.loadWord_eq hr.srcAligned (hi.trans_le sv39.fits) hne,
      hoff.loadWord_eq hr.srcAligned (hi.trans_le sv39.fits) hne]
  change ∃ _, _
  rw [hword, show e &&& 0x3FF#64 = pteFlags e from rfl]
  set m₂ := copyPage (pteToPa e).toNat d t.mem
  set m₃ := storeWord m₂ (dst + 8 * i) (paToPte (BitVec.ofNat 64 d) (pteFlags e)) with hm₃
  have hstore : EqOff {dst} m₂ m₃ := eqOff_storeWord _ hr.dstAligned (hi.trans_le sv39.fits) _
  have hchild : sv39.child (paToPte (BitVec.ofNat 64 d) (pteFlags e)) = some d :=
    sv39_child_paToPte hd.aligned hd.lt (toNat_pteFlags_lt e) (by rwa [pteFlags_valid])
  have hall : EqOff ({dst} + {d}) s.mem m₃ := by
    apply ((hoff.trans_self hcopy).trans hstore).mono
    intro x hx
    rw [add_comm]
    exact hx
  have hentry : loadWord m₃ (dst + 8 * i) = paToPte (BitVec.ofNat 64 d) (pteFlags e) :=
    loadWord_storeWord _ _ _
  refine ⟨[d], free₁, rfl, ?_, hall, fun j hj hji => ?_, ?_, ?_⟩
  · refine (hf₁.eqOff hcopy ?_).eqOff hstore ?_
    · intro x hx
      rw [Multiset.mem_singleton]
      rintro rfl
      exact (List.nodup_cons.mp hr.isFree.nodup).1 hx
    · intro x hx
      rw [Multiset.mem_singleton]
      rintro rfl
      exact hnd.1.2 hx
  · have hne : dst ∉ ({d} : Multiset ℕ) := by simpa using hnd.1.1
    rw [hm₃, loadWord_storeWord_of_ne _ _ _ hji.symm,
      hcopy.loadWord_eq hr.dstAligned (hj.trans_le sv39.fits) hne,
      hoff.loadWord_eq hr.dstAligned (hj.trans_le sv39.fits) hne]
  · rw [hentry, pagesBelow_of_some hchild, pages_zero]
    rfl
  · refine Or.inr ⟨_, d, hq, by rw [hentry, hchild], by rw [hentry, pteFlags_paToPte], ?_⟩
    rw [sameTree_zero]
    intro b hb
    have hne : d ∉ ({dst} : Multiset ℕ) := by simpa using Ne.symm hnd.1.1
    change m₃ (d + b) = _
    rw [hstore.byte_eq hd.aligned hb hne]
    change copyPage _ d t.mem (d + b) = _
    rw [copyPage_apply _ (pteToPa_aligned e) hd.aligned (hin _ hframe).1, if_pos (by omega),
      Nat.add_sub_cancel_left]
    exact hoff.byte_eq (pteToPa_aligned e) hb (by simpa using (hin _ hframe).1)

/-- The body of an outer loop, at a valid entry: link a fresh table, then copy into it. -/
def linkAndCopy (body : ℕ → ℕ → Phys → ℕ → Option Phys) (src dst : ℕ) (s : Phys) (i : ℕ) :
    Option Phys :=
  (allocPage s).bind fun (d, t) =>
    forEntries (body (pteToPa (loadWord s.mem (src + 8 * i))).toNat d)
      { t with
        mem := storeWord t.mem (dst + 8 * i) (paToPte (BitVec.ofNat 64 d)
          (loadWord t.mem (src + 8 * i) &&& 0x3FF#64)) }

/-- When the inner loop copies tables, linking and copying copies the entry. -/
theorem copiesEntry_linkAndCopy {body : ℕ → ℕ → Phys → ℕ → Option Phys}
    (hbody : CopiesTable h body) (hr : CopyReady s free (h + 1) src dst) (hi : i < sv39.entries)
    (hv : loadWord s.mem (src + 8 * i) &&& pteV ≠ 0) :
    CopiesEntry (h + 1) (linkAndCopy body src dst) src dst s free i := by
  set e := loadWord s.mem (src + 8 * i) with he
  set q := (pteToPa e).toNat with hqdef
  have hq : sv39.child e = some q := sv39_child_of_valid hv
  have hqal : PageAligned q := pteToPa_aligned e
  rw [CopiesEntry, linkAndCopy, ← he, pagesBelow_of_some hq]
  have hbelow : ∀ x ∈ sv39.pages s.mem (h + 1) q, x ∈ sv39.pages s.mem (h + 2) src := by
    intro x hx
    refine Multiset.mem_of_le (pagesBelow_le hi) ?_
    rwa [pagesBelow_of_some hq]
  refine ((allocPage_spec hr.isFree).mono (fun hshort => ?_) fun _ h => h).bind ?_
  · have hpos : 0 < (sv39.pages s.mem (h + 1) q).card := by
      rw [Multiset.card_pos_iff_exists_mem]
      exact ⟨q, self_mem_nodes⟩
    omega
  rintro ⟨d, t⟩ ⟨free₁, rfl, hf₁, hoff, hz⟩
  have hd : IsPage d := hr.isFree.isPage _ List.mem_cons_self
  have hnd := hr.nodup
  rw [Multiset.singleton_add, Multiset.nodup_cons, Multiset.mem_coe, List.mem_cons,
    not_or] at hnd
  have hin : ∀ x ∈ sv39.pages s.mem (h + 2) src, x ≠ dst ∧ x ≠ d ∧ x ∉ free₁ := by
    intro x hx
    have := hr.apart x hx
    simpa only [Multiset.mem_add, Multiset.mem_singleton, Multiset.mem_coe, List.mem_cons,
      not_or] using this
  have hword : loadWord t.mem (src + 8 * i) = e :=
    hoff.loadWord_eq hr.srcAligned (hi.trans_le sv39.fits)
      (by simpa using (hin src self_mem_nodes).2.1)
  change Outcome _ _ (forEntries (body q d) { t with mem := _ })
  rw [hword, show e &&& 0x3FF#64 = pteFlags e from rfl]
  set e' := paToPte (BitVec.ofNat 64 d) (pteFlags e) with he'
  set m₂ := storeWord t.mem (dst + 8 * i) e' with hm₂
  have hstore : EqOff {dst} t.mem m₂ := eqOff_storeWord _ hr.dstAligned (hi.trans_le sv39.fits) _
  have hchild : sv39.child e' = some d :=
    sv39_child_paToPte hd.aligned hd.lt (toNat_pteFlags_lt e) (by rwa [pteFlags_valid])
  have htwo : EqOff ({d} + {dst}) s.mem m₂ := hoff.trans hstore
  have hoff₂ : ∀ x ∈ sv39.pages s.mem (h + 2) src, x ∉ ({d} + {dst} : Multiset ℕ) := by
    intro x hx
    obtain ⟨h1, h2, -⟩ := hin x hx
    simp only [Multiset.mem_add, Multiset.mem_singleton, not_or]
    exact ⟨h2, h1⟩
  have hpages : sv39.pages m₂ (h + 1) q = sv39.pages s.mem (h + 1) q :=
    pages_eqOff htwo hqal fun x hx => hoff₂ x (hbelow x hx)
  have hdne : d ∉ ({dst} : Multiset ℕ) := by simpa using Ne.symm hnd.1.1
  have hready : CopyReady { t with mem := m₂ } free₁ h q d := by
    refine ⟨hf₁.eqOff hstore ?_, hqal, hd.aligned, hnd.2, ?_⟩
    · intro x hx
      rw [Multiset.mem_singleton]
      rintro rfl
      exact hnd.1.2 hx
    · intro x hx
      rw [show sv39.pages _ (h + 1) q = sv39.pages s.mem (h + 1) q from hpages] at hx
      obtain ⟨-, h2, h3⟩ := hin x (hbelow x hx)
      simp only [Multiset.mem_add, Multiset.mem_singleton, Multiset.mem_coe, not_or]
      exact ⟨h2, h3⟩
  have hcleared : ∀ b < 4096, m₂ (d + b) = 0 := by
    intro b hb
    rw [hstore.byte_eq hd.aligned hb hdne, hz b hb]
  refine (hbody { t with mem := m₂ } free₁ q d hready hcleared).mono ?_ ?_
  · intro hshort
    rw [show sv39.pages _ (h + 1) q = sv39.pages s.mem (h + 1) q from hpages] at hshort
    rw [List.length_cons]
    exact hshort
  rintro s' ⟨new, free', rfl, hf', hoff', hpages', hsame⟩
  -- the inner loop wrote only to the new table and to free pages
  have hdst : dst ∉ ({d} + ↑new : Multiset ℕ) := by
    have := hnd.1
    simp only [List.mem_append, not_or] at this
    simp only [Multiset.mem_add, Multiset.mem_singleton, Multiset.mem_coe, not_or]
    exact ⟨this.1, this.2.1⟩
  have hentry : loadWord s'.mem (dst + 8 * i) = e' := by
    rw [hoff'.loadWord_eq hr.dstAligned (hi.trans_le sv39.fits) hdst]
    exact loadWord_storeWord _ _ _
  refine ⟨d :: new, free', rfl, hf', ?_, fun j hj hji => ?_, ?_, ?_⟩
  · apply (htwo.trans hoff').mono
    intro x hx
    simp only [Multiset.mem_add, Multiset.mem_singleton, Multiset.mem_coe, List.mem_cons] at hx ⊢
    rcases hx with (rfl | rfl) | rfl | hx
    · exact Or.inr (Or.inl rfl)
    · exact Or.inl rfl
    · exact Or.inr (Or.inl rfl)
    · exact Or.inr (Or.inr hx)
  · rw [hoff'.loadWord_eq hr.dstAligned (hj.trans_le sv39.fits) hdst]
    change loadWord m₂ _ = _
    rw [hm₂, loadWord_storeWord_of_ne _ _ _ hji.symm,
      hoff.loadWord_eq hr.dstAligned (hj.trans_le sv39.fits) (by simpa using hnd.1.1)]
  · rw [hentry, pagesBelow_of_some hchild, hpages']
    rfl
  · refine Or.inr ⟨q, d, hq, by rw [hentry, hchild], by rw [hentry, he', pteFlags_paToPte], ?_⟩
    apply hsame.congr_left htwo.symm hqal
    intro x hx
    rw [show sv39.pages _ (h + 1) q = sv39.pages s.mem (h + 1) q from hpages] at hx
    exact hoff₂ x (hbelow x hx)

/-! ### Whole tables -/

/-- A loop whose body copies entries copies tables. -/
theorem copiesTable_of_copiesEntry {body : ℕ → ℕ → Phys → ℕ → Option Phys}
    (hbody : ∀ s free src dst i, CopyReady s free h src dst → i < sv39.entries →
      loadWord s.mem (dst + 8 * i) = 0#64 → CopiesEntry h (body src dst) src dst s free i) :
    CopiesTable h body := by
  intro s free src dst hr hcleared
  rw [forEntries_eq]
  refine copyEntries pteFlags Phys.mem FreePages hr.isFree hr.srcAligned hr.nodup hr.apart
    (fun _ => loadWord_of_cleared hcleared) ?_
  intro i hi t free' hf _ _ hnd hapart hdst
  exact hbody t free' src dst i ⟨hf, hr.srcAligned, hr.dstAligned, hnd, hapart⟩ hi hdst

/-- The innermost loop of `copy_user_page_table` copies a leaf table. -/
theorem copiesTable_copyLeaf : CopiesTable 0 copyLeaf :=
  copiesTable_of_copiesEntry fun _ _ _ _ _ hr hi hdst => copiesEntry_copyLeaf hr hi hdst

/-- The middle loop of `copy_user_page_table` copies a middle table. -/
theorem copiesTable_copyMiddle : CopiesTable 1 copyMiddle := by
  apply copiesTable_of_copiesEntry
  intro s free src dst i hr hi hdst
  by_cases hv : loadWord s.mem (src + 8 * i) &&& pteV ≠ 0
  · have hbody : copyMiddle src dst s i = linkAndCopy copyLeaf src dst s i := if_pos hv
    have hentry := copiesEntry_linkAndCopy copiesTable_copyLeaf hr hi hv
    rwa [CopiesEntry, ← hbody] at hentry
  · apply copiesEntry_of_none hr.isFree _ (sv39_child_of_not_valid hv) hdst
    exact if_neg hv

/-! ### The whole function -/

/-- The two tables have an entry in common only where neither has a child. -/
def SharesNothing (m : Mem) (pgd root : ℕ) : Prop :=
  ∀ i < sv39.entries, loadWord m (pgd + 8 * i) = loadWord m (root + 8 * i) →
    sv39.child (loadWord m (pgd + 8 * i)) = none

theorem SharesNothing.eqOff {m m' : Mem} {S : Multiset ℕ} {pgd root : ℕ}
    (hs : SharesNothing m pgd root) (hm : EqOff S m m') (hpgd : PageAligned pgd)
    (hroot : PageAligned root) (hpgdS : pgd ∉ S) (hrootS : root ∉ S) :
    SharesNothing m' pgd root := by
  intro i hi
  rw [hm.loadWord_eq hpgd (hi.trans_le sv39.fits) hpgdS,
    hm.loadWord_eq hroot (hi.trans_le sv39.fits) hrootS]
  exact hs i hi

/-- The body of the outer loop copies its entry. -/
theorem copiesEntry_copyTop {root : ℕ} (hr : CopyReady s free 2 src dst)
    (hi : i < sv39.entries) (hs : SharesNothing s.mem src root)
    (hdst : loadWord s.mem (dst + 8 * i) = 0#64) :
    CopiesEntry 2 (copyTop root src dst) src dst s free i := by
  by_cases heq : loadWord s.mem (src + 8 * i) = loadWord s.mem (root + 8 * i)
  · -- a shared entry has no child, and neither has its copy
    have hnone := hs i hi heq
    rw [CopiesEntry, copyTop]
    dsimp only
    rw [if_pos heq]
    set m' := storeWord s.mem (dst + 8 * i) (loadWord s.mem (src + 8 * i)) with hm'
    have hoff : EqOff {dst} s.mem m' :=
      eqOff_storeWord _ hr.dstAligned (hi.trans_le sv39.fits) _
    have hdstFree : dst ∉ free := by
      have := hr.nodup
      rw [Multiset.singleton_add, Multiset.nodup_cons] at this
      exact this.1
    refine ⟨[], free, rfl, hr.isFree.eqOff hoff ?_, entryCopied_of_none hoff ?_ hnone ?_⟩
    · intro x hx
      rw [Multiset.mem_singleton]
      rintro rfl
      exact hdstFree hx
    · intro j hj hji
      exact loadWord_storeWord_of_ne _ _ _ hji.symm
    · change sv39.child (loadWord m' _) = none
      rw [hm', loadWord_storeWord, hnone]
  by_cases hv : loadWord s.mem (src + 8 * i) &&& pteV ≠ 0
  · -- a valid entry of its own: link a new table and copy the one below
    have hbody : copyTop root src dst s i = linkAndCopy copyMiddle src dst s i := by
      rw [copyTop]
      dsimp only
      rw [if_neg heq, if_pos hv]
      rfl
    have hentry := copiesEntry_linkAndCopy copiesTable_copyMiddle hr hi hv
    rwa [CopiesEntry, ← hbody] at hentry
  · -- an entry that is not valid is passed over, and stays zero in the copy
    apply copiesEntry_of_none hr.isFree _ (sv39_child_of_not_valid hv) hdst
    rw [copyTop]
    dsimp only
    rw [if_neg heq, if_neg hv]

/-- From `s` to `s'`, the page table `src` has been copied to `dst`, into the pages `new`. -/
structure AddressSpaceCopied (s s' : Phys) (src dst : ℕ) (new : List ℕ) : Prop where
  /-- The pages of the copy are the new ones. -/
  pages : sv39.pages s'.mem 3 dst = ↑new
  /-- No other page was written. -/
  eqOff : EqOff ↑new s.mem s'.mem
  /-- The copy leads to frames with the same bytes, through entries with the same flags. -/
  same : sv39.SameTree pteFlags s.mem s'.mem 3 src dst

/-- `copy_user_page_table` copies the page table into the first free pages; it hangs only if
there are fewer of them than pages to copy. -/
theorem copyUserPageTable_spec {root : ℕ} (hf : FreePages s free) (hsrc : PageAligned src)
    (hroot : PageAligned root) (hrootFree : root ∉ free)
    (hapart : ∀ x ∈ sv39.pages s.mem 3 src, x ∉ free) (hs : SharesNothing s.mem src root) :
    Outcome (free.length < (sv39.pages s.mem 3 src).card)
      (fun r => ∃ new free' : List ℕ, free = new ++ free' ∧ FreePages r.2 free' ∧ r.1 ∈ new ∧
        AddressSpaceCopied s r.2 src r.1 new) (copyUserPageTable root src s) := by
  have hsrcFree : src ∉ free := hapart src self_mem_nodes
  refine ((allocPage_spec hf).mono (fun hshort => ?_) fun _ h => h).bind ?_
  · -- the root of the source is a page, so an empty free list is too short
    have hpos : 0 < (sv39.pages s.mem 3 src).card := by
      rw [Multiset.card_pos_iff_exists_mem]
      exact ⟨src, self_mem_nodes⟩
    omega
  rintro ⟨dst, t⟩ ⟨free₁, rfl, hf₁, hoff, hz⟩
  have hdst : IsPage dst := hf.isPage _ List.mem_cons_self
  -- the new root was free, so clearing it leaves the pages of the source as they were
  have hpages : sv39.pages t.mem 3 src = sv39.pages s.mem 3 src := by
    apply pages_eqOff hoff hsrc
    intro x hx
    rw [Multiset.mem_singleton]
    rintro rfl
    exact hapart x hx List.mem_cons_self
  have hnd : ({dst} + (free₁ : Multiset ℕ)).Nodup := by
    rw [Multiset.singleton_add, Multiset.cons_coe]
    exact hf.nodup
  have hapart₁ : ∀ x ∈ sv39.pages t.mem (2 + 1) src, x ∉ {dst} + (free₁ : Multiset ℕ) := by
    intro x hx
    rw [hpages] at hx
    rw [Multiset.singleton_add, Multiset.cons_coe]
    exact hapart x hx
  have hs₁ : SharesNothing t.mem src root := by
    apply hs.eqOff hoff hsrc hroot
    · rw [Multiset.mem_singleton]
      rintro rfl
      exact hsrcFree List.mem_cons_self
    · rw [Multiset.mem_singleton]
      rintro rfl
      exact hrootFree List.mem_cons_self
  change Outcome _ _ ((forEntries (copyTop root src dst) t).bind _)
  rw [forEntries_eq]
  refine ((copyEntries pteFlags Phys.mem FreePages hf₁ hsrc hnd hapart₁
    (fun _ => loadWord_of_cleared hz) ?_).mono (fun hshort => ?_) fun _ h => h).bind ?_
  · -- a turn finds the source still sharing nothing with the kernel table
    intro i hi u free' hfree' _ hoff' hnd' hapart' hentry
    refine copiesEntry_copyTop ⟨hfree', hsrc, hdst.aligned, hnd', hapart'⟩ hi ?_ hentry
    apply hs₁.eqOff hoff' hsrc hroot
    · rw [Multiset.singleton_add, Multiset.cons_coe]
      exact hsrcFree
    · rw [Multiset.singleton_add, Multiset.cons_coe]
      exact hrootFree
  · rw [hpages] at hshort
    exact hshort
  · rintro s' ⟨new, free', rfl, hf', hcopied⟩
    refine ⟨dst :: new, free', rfl, hf', List.mem_cons_self, ?_, ?_, ?_⟩
    · rw [hcopied.pages, Multiset.singleton_add, Multiset.cons_coe]
    · apply (hoff.trans hcopied.eqOff).mono
      intro x hx
      rw [← Multiset.cons_coe]
      simp only [Multiset.mem_add, Multiset.mem_singleton, Multiset.mem_cons] at hx ⊢
      exact hx.elim Or.inl id
    · apply hcopied.same.congr_left hoff.symm hsrc
      intro x hx
      rw [hpages] at hx
      rw [Multiset.mem_singleton]
      rintro rfl
      exact hapart x hx List.mem_cons_self

end RiscvKernel
