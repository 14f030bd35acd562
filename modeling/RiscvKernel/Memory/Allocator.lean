import Mathlib.Logic.Relation
import Mathlib.Order.Interval.Finset.Nat
import RiscvKernel.Memory.Boot

/-!
# The allocator over its whole history

Any number of calls of `alloc_page` and `free_page` after `page_init`, with the owners of the
allocated pages writing to them in between (`Use`). The allocated pages are not recorded anywhere in
the kernel, so that they are a component of their own in the state (`Usage`).

* `Sound.use`, `Sound.of_run`: the free pages are the managed pages that are not allocated, after
  every step and every run.
* `getFreePageCount_of_chain`: `get_free_page_count` ends with the length of the list.
* `allocator_sound`: what a caller can rely on after any run.
-/

namespace RiscvKernel

open ByteMemory FreeList

/-! ### Counting -/

/-- The loop of `get_free_page_count`, for at most `fuel` turns. -/
def countPages (m : Mem) : ℕ → ℕ → ℕ → Option ℕ
  | 0, _, _ => none
  | fuel + 1, p, count =>
    if p ≠ 0 then countPages m fuel (loadWord m p).toNat (count + 1) else some count

/-- `get_free_page_count`. -/
def getFreePageCount (fuel : ℕ) (s : Phys) : Option ℕ := countPages s.mem fuel s.freeList 0

/-- The loop ends after the last page of the list. -/
theorem countPages_of_chain {m : Mem} {fuel p count : ℕ} {l : List ℕ} (h : Chain m p l)
    (hfuel : l.length < fuel) : countPages m fuel p count = some (count + l.length) := by
  induction l generalizing fuel p count with
  | nil =>
    obtain rfl : p = 0 := h
    obtain ⟨fuel, rfl⟩ := Nat.exists_eq_succ_of_ne_zero (Nat.ne_zero_of_lt hfuel)
    rw [countPages, if_neg (not_not.mpr rfl)]
    rfl
  | cons q l ih =>
    obtain ⟨rfl, hne, htail⟩ := h
    rw [List.length_cons] at hfuel ⊢
    obtain ⟨fuel, rfl⟩ := Nat.exists_eq_succ_of_ne_zero (Nat.ne_zero_of_lt hfuel)
    rw [countPages, if_pos hne, ih htail (by omega), Nat.add_assoc, Nat.add_comm 1]

theorem getFreePageCount_of_chain {s : Phys} {fuel : ℕ} {l : List ℕ}
    (h : Chain s.mem s.freeList l) (hfuel : l.length < fuel) :
    getFreePageCount fuel s = some l.length := by
  rw [getFreePageCount, countPages_of_chain h hfuel, Nat.zero_add]

/-! ### Histories -/

/-- The allocator's state, and the pages that are allocated. -/
structure Usage where
  phys : Phys
  allocated : Finset ℕ

/-- One use of the allocator: a page is allocated, an allocated page is freed, or the owners write
to their pages. -/
inductive Use : Usage → Usage → Prop
  | alloc {u : Usage} {p : ℕ} {t : Phys} (h : allocPage u.phys = some (p, t)) :
    Use u ⟨t, insert p u.allocated⟩
  | free {u : Usage} {p : ℕ} (h : p ∈ u.allocated) :
    Use u ⟨freePage u.phys p, u.allocated.erase p⟩
  | write {u : Usage} {m : Mem} (h : EqOff u.allocated.val u.phys.mem m) :
    Use u ⟨{ u.phys with mem := m }, u.allocated⟩

/-- The pages between the kernel image and the end of RAM. -/
def managedPages (kernelEnd : ℕ) : Finset ℕ :=
  (Finset.Ico (alignUp (BitVec.ofNat 64 kernelEnd)).toNat ramEnd).filter PageAligned

/-- The free list holds the managed pages that are not allocated, each once. -/
structure Sound (kernelEnd : ℕ) (u : Usage) (free : List ℕ) : Prop where
  isFree : FreePages u.phys free
  allocated : u.allocated ⊆ managedPages kernelEnd
  free_eq : free.toFinset = managedPages kernelEnd \ u.allocated

variable {kernelEnd p : ℕ} {u v : Usage} {free : List ℕ} {m : Mem} {t : Phys}

theorem isPage_of_mem_managedPages (hpos : 0 < kernelEnd) (hle : kernelEnd ≤ ramEnd)
    (hp : p ∈ managedPages kernelEnd) : IsPage p := by
  have hram : ramEnd = 0x88000000 := rfl
  rw [managedPages, toNat_alignUp hle, Finset.mem_filter, Finset.mem_Ico] at hp
  exact ⟨hp.2, by omega, by omega⟩

namespace Sound

theorem mem_free (h : Sound kernelEnd u free) :
    p ∈ free ↔ p ∈ managedPages kernelEnd ∧ p ∉ u.allocated := by
  rw [← List.mem_toFinset, h.free_eq, Finset.mem_sdiff]

/-- Free pages are not allocated. -/
theorem disjoint (h : Sound kernelEnd u free) : Disjoint free.toFinset u.allocated := by
  rw [h.free_eq]
  exact Finset.sdiff_disjoint

/-- Every managed page is free or allocated. -/
theorem union (h : Sound kernelEnd u free) :
    free.toFinset ∪ u.allocated = managedPages kernelEnd := by
  rw [h.free_eq, Finset.sdiff_union_of_subset h.allocated]

theorem length (h : Sound kernelEnd u free) :
    free.length = (managedPages kernelEnd \ u.allocated).card := by
  rw [← h.free_eq, List.toFinset_card_of_nodup h.isFree.nodup]

/-- After `page_init` all managed pages are free. -/
theorem of_pageInit (hpos : 0 < kernelEnd) (hle : kernelEnd ≤ ramEnd) (m : Mem) :
    ∃ s free, pageInit kernelEnd m = some s ∧ Sound kernelEnd ⟨s, ∅⟩ free := by
  obtain ⟨s, free, hs, hf, hfree, -⟩ := pageInit_pages hpos hle m
  refine ⟨s, free, hs, hf, Finset.empty_subset _, ?_⟩
  have hal : PageAligned ((kernelEnd + 4095) / 4096 * 4096) := by
    rw [PageAligned]
    omega
  ext p
  rw [List.mem_toFinset, ← Multiset.mem_coe, hfree, mem_pagesFrom hal, Finset.sdiff_empty,
    managedPages, toNat_alignUp hle, Finset.mem_filter, Finset.mem_Ico]
  exact And.comm

/-- The page allocated was the first free one. -/
theorem alloc (h : Sound kernelEnd u free) (halloc : allocPage u.phys = some (p, t)) :
    ∃ free', free = p :: free' ∧ Sound kernelEnd ⟨t, insert p u.allocated⟩ free' ∧
      EqOff {p} u.phys.mem t.mem ∧ ∀ b < 4096, t.mem (p + b) = 0 := by
  obtain ⟨free', hsplit, hf', hoff, hz⟩ := (allocPage_spec h.isFree).post_of_eq_some halloc
  dsimp only at hsplit hf' hoff hz
  have hmem : ∀ q, q ∈ free ↔ q ∈ managedPages kernelEnd ∧ q ∉ u.allocated := fun q => h.mem_free
  have hnot := h.isFree.nodup
  rw [hsplit, List.nodup_cons] at hnot
  refine ⟨free', hsplit, ⟨hf', ?_, ?_⟩, hoff, hz⟩
  · apply Finset.insert_subset _ h.allocated
    exact ((hmem p).mp (hsplit ▸ List.mem_cons_self)).1
  · ext q
    rw [List.mem_toFinset, Finset.mem_sdiff, Finset.mem_insert, not_or, and_left_comm, ← hmem,
      hsplit, List.mem_cons]
    constructor
    · intro hq
      refine ⟨?_, Or.inr hq⟩
      rintro rfl
      exact hnot.1 hq
    · rintro ⟨hne, hq⟩
      exact hq.resolve_left hne

/-- A step keeps the list sound. -/
theorem use (hpos : 0 < kernelEnd) (hle : kernelEnd ≤ ramEnd) (h : Sound kernelEnd u free)
    (hstep : Use u v) : ∃ free', Sound kernelEnd v free' := by
  cases hstep with
  | alloc halloc =>
    obtain ⟨free', -, h', -⟩ := h.alloc halloc
    exact ⟨free', h'⟩
  | @free p hp =>
    have hnot : p ∉ free := fun hfree => (h.mem_free.mp hfree).2 hp
    have hpage := isPage_of_mem_managedPages hpos hle (h.allocated hp)
    refine ⟨p :: free, (freePage_spec h.isFree hpage hnot).1, ?_, ?_⟩
    · exact (Finset.erase_subset _ _).trans h.allocated
    · ext q
      rw [List.mem_toFinset, List.mem_cons, h.mem_free, Finset.mem_sdiff, Finset.mem_erase]
      by_cases hq : q = p
      · subst hq
        simp [h.allocated hp]
      · simp [hq]
  | write hm =>
    refine ⟨free, h.isFree.eqOff hm fun p hp => ?_, h.allocated, h.free_eq⟩
    exact (h.mem_free.mp hp).2

/-- A run keeps the list sound. -/
theorem of_run (hpos : 0 < kernelEnd) (hle : kernelEnd ≤ ramEnd) (h : Sound kernelEnd u free)
    (hrun : Relation.ReflTransGen Use u v) : ∃ free', Sound kernelEnd v free' := by
  induction hrun with
  | refl => exact ⟨free, h⟩
  | tail _ hstep ih =>
    obtain ⟨free', h'⟩ := ih
    exact h'.use hpos hle hstep

/-- `alloc_page` fails only when every page is allocated. -/
theorem allocPage_eq_none_iff (h : Sound kernelEnd u free) :
    allocPage u.phys = none ↔ u.allocated = managedPages kernelEnd := by
  have hempty : u.phys.freeList = 0 ↔ free = [] := by
    constructor
    · intro hzero
      have hchain := h.isFree.chain
      rw [hzero] at hchain
      exact Chain.nil_iff.mp hchain
    · intro hnil
      have hchain := h.isFree.chain
      rw [hnil] at hchain
      exact hchain
  have hnone : allocPage u.phys = none ↔ u.phys.freeList = 0 := by
    rw [allocPage]
    split_ifs with hne
    · simp [hne]
    · simpa using hne
  rw [hnone, hempty, ← List.toFinset_eq_empty_iff, h.free_eq, Finset.sdiff_eq_empty_iff_subset]
  exact ⟨fun hsub => h.allocated.antisymm hsub, fun heq => heq ▸ Finset.Subset.refl _⟩

end Sound

/-- After `page_init` and any history of use: the links from `free_list` visit, each once, the
managed pages that are not allocated; `alloc_page` hands out a page that was not allocated,
cleared, and touches no other; it fails only when every page is allocated; and
`get_free_page_count` ends with the number of pages that are not allocated. -/
theorem allocator_sound (hpos : 0 < kernelEnd) (hle : kernelEnd ≤ ramEnd) (m : Mem) :
    ∃ s, pageInit kernelEnd m = some s ∧ ∀ u, Relation.ReflTransGen Use ⟨s, ∅⟩ u →
      (∃ free : List ℕ, Chain u.phys.mem u.phys.freeList free ∧ free.Nodup ∧
        free.toFinset ∪ u.allocated = managedPages kernelEnd ∧
        Disjoint free.toFinset u.allocated) ∧
      (∀ p t, allocPage u.phys = some (p, t) →
        p ∈ managedPages kernelEnd ∧ p ∉ u.allocated ∧ (∀ b < 4096, t.mem (p + b) = 0) ∧
        EqOff {p} u.phys.mem t.mem) ∧
      (allocPage u.phys = none ↔ u.allocated = managedPages kernelEnd) ∧
      ∀ fuel, (managedPages kernelEnd \ u.allocated).card < fuel →
        getFreePageCount fuel u.phys = some (managedPages kernelEnd \ u.allocated).card := by
  obtain ⟨s, free₀, hs, hstart⟩ := Sound.of_pageInit hpos hle m
  refine ⟨s, hs, fun u hrun => ?_⟩
  obtain ⟨free, h⟩ := hstart.of_run hpos hle hrun
  refine ⟨⟨free, h.isFree.chain, h.isFree.nodup, h.union, h.disjoint⟩, fun p t halloc => ?_,
    h.allocPage_eq_none_iff, fun fuel hfuel => ?_⟩
  · obtain ⟨free', rfl, -, hoff, hz⟩ := h.alloc halloc
    have hp := h.mem_free.mp List.mem_cons_self
    exact ⟨hp.1, hp.2, hz, hoff⟩
  · rw [← h.length] at hfuel ⊢
    exact getFreePageCount_of_chain h.isFree.chain hfuel

/-- Behind a kernel image of one MiB two pages are allocated; the first one is written and freed,
and the second one stays. -/
theorem allocator_sound_mib : ∃ (s : Phys) (u : Usage) (p q : ℕ),
    pageInit 0x80100000 (fun _ => 0) = some s ∧ Relation.ReflTransGen Use ⟨s, ∅⟩ u ∧ p ≠ q ∧
      u.phys.freeList = p ∧ u.allocated = {q} ∧
      getFreePageCount 0x88000000 u.phys = some (managedPages 0x80100000 \ {q}).card := by
  have hpos : 0 < 0x80100000 := by decide
  obtain ⟨s, hs, hsound⟩ := allocator_sound hpos (by decide) fun _ => 0
  have hfirst : 0x80100000 ∈ managedPages 0x80100000 := by
    rw [managedPages, Finset.mem_filter, Finset.mem_Ico]
    decide
  have hsecond : 0x80101000 ∈ managedPages 0x80100000 := by
    rw [managedPages, Finset.mem_filter, Finset.mem_Ico]
    decide
  -- the first page
  have hrun : Relation.ReflTransGen Use ⟨s, ∅⟩ ⟨s, ∅⟩ := .refl
  obtain ⟨⟨p, t⟩, halloc⟩ : ∃ r, allocPage s = some r := by
    rw [← Option.ne_none_iff_exists', Ne, (hsound _ hrun).2.2.1]
    exact fun hall => Finset.notMem_empty _ (hall ▸ hfirst)
  replace hrun := hrun.tail (.alloc halloc)
  -- the second page
  obtain ⟨⟨q, t'⟩, halloc'⟩ : ∃ r, allocPage t = some r := by
    rw [← Option.ne_none_iff_exists', Ne, (hsound _ hrun).2.2.1]
    intro hall
    have hone := Finset.mem_singleton.mp (hall ▸ hfirst)
    have htwo := Finset.mem_singleton.mp (hall ▸ hsecond)
    omega
  have hne : q ≠ p := by
    rintro rfl
    exact ((hsound _ hrun).2.1 q t' halloc').2.1 (Finset.mem_insert_self _ _)
  replace hrun := hrun.tail (.alloc halloc')
  -- a write to the first page, which then goes back
  have hp := ((hsound _ .refl).2.1 p t halloc).1
  have hpage := isPage_of_mem_managedPages hpos (by decide) hp
  have hwrite : EqOff (insert q (insert p ∅) : Finset ℕ).val t'.mem (storeByte t'.mem p 0xAA) := by
    refine (eqOff_storeByte _ _ _).mono fun x hx => ?_
    have hself : pageOf p = p := pageOf_add hpage.aligned (b := 0) (by decide)
    rw [Multiset.mem_singleton, hself] at hx
    simp [hx]
  replace hrun := hrun.tail (.write hwrite)
  replace hrun := hrun.tail (.free (Finset.mem_insert_of_mem (Finset.mem_insert_self p ∅)))
  have hleft : (insert q (insert p ∅) : Finset ℕ).erase p = {q} := by
    rw [Finset.erase_insert_of_ne hne, Finset.erase_insert (Finset.notMem_empty p)]
    rfl
  rw [hleft] at hrun
  refine ⟨s, _, p, q, hs, hrun, hne.symm, ?_, rfl, (hsound _ hrun).2.2.2 _ ?_⟩
  · dsimp only
    rw [freePage, if_neg hpage.pos.ne']
  have hcard : (managedPages 0x80100000).card ≤ ramEnd - (alignUp 0x80100000#64).toNat :=
    (Finset.card_filter_le _ _).trans_eq (Nat.card_Ico _ _)
  have hstart : (alignUp 0x80100000#64).toNat = 0x80100000 := by decide
  rw [hstart] at hcard
  have hsub := Finset.card_le_card (Finset.sdiff_subset (s := managedPages 0x80100000) (t := {q}))
  exact (hsub.trans hcard).trans_lt (by decide)

end RiscvKernel
