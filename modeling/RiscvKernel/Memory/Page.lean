import RiscvKernel.Lib.FreeList
import RiscvKernel.Lib.Outcome

/-!
# The physical page allocator

The functions of `kernel/page.c` over the physical memory and the head of the free list, which
are the state `Phys`. The list has no storage of its own: the first word of a free page is the
link to the next one. `PAGE_SIZE` is 4096 throughout.

* `allocPage_spec`: the page handed out was the first free one, and it comes back cleared.
* `freePage_spec`: a page given back becomes the first free one.

`allocPage` returns `none` where `alloc_page` loops forever for want of a page.
-/

namespace RiscvKernel

open ByteMemory FreeList

/-- `RAM_END`: the end of the 128 MiB of RAM at `0x80000000`. -/
def ramEnd : ℕ := 0x80000000 + 128 * 1024 * 1024

/-- Physical memory and `free_list`, the head of the allocator's list. -/
structure Phys where
  /-- The bytes of physical memory. -/
  mem : Mem
  /-- `free_list`. -/
  freeList : ℕ

/-- `ALIGN_UP(a, PAGE_SIZE)`. -/
def alignUp (a : Word) : Word := (a + 4096#64 - 1#64) &&& ~~~(4096#64 - 1#64)

/-- `free_page`: link a page in front of the list. -/
def freePage (s : Phys) (p : ℕ) : Phys :=
  if p = 0 then s
  else { mem := storeWord s.mem p (BitVec.ofNat 64 s.freeList), freeList := p }

/-- `page_init`: the loop that links every page from the end of the kernel image to the end of
RAM. -/
def pageInit (kernelEnd : ℕ) (m : Mem) : Option Phys :=
  forPages (fun s p =>
      some { mem := storeWord s.mem p (BitVec.ofNat 64 s.freeList), freeList := p })
    (alignUp (BitVec.ofNat 64 kernelEnd)).toNat ramEnd { mem := m, freeList := 0 }

/-- The loop that clears a page byte by byte. -/
def clearPage (m : Mem) (p : ℕ) : Mem := storeLoop (fun _ _ => 0) p 4096 m

/-- `alloc_page`: take the first page off the list and clear it. -/
def allocPage (s : Phys) : Option (ℕ × Phys) :=
  if s.freeList ≠ 0 then
    some (s.freeList,
      { mem := clearPage s.mem s.freeList,
        freeList := (loadWord s.mem s.freeList).toNat })
  else none

/-! ### Free pages -/

/-- A page that a page-table entry can name: aligned, not null and below `2 ^ 56`. -/
structure IsPage (p : ℕ) : Prop where
  aligned : PageAligned p
  pos : 0 < p
  lt : p < 2 ^ 56

/-- The free list visits the pages `l`, each once. -/
structure FreePages (s : Phys) (l : List ℕ) : Prop where
  chain : Chain s.mem s.freeList l
  isPage : ∀ p ∈ l, IsPage p
  nodup : l.Nodup

namespace FreePages

variable {s : Phys} {l : List ℕ} {p : ℕ} {S : Multiset ℕ} {m : Mem}

/-- A change that touches no free page keeps the list. -/
theorem eqOff (h : FreePages s l) (hm : EqOff S s.mem m) (hS : ∀ p ∈ l, p ∉ S) :
    FreePages { s with mem := m } l :=
  ⟨h.chain.eqOff hm (fun p hp => (h.isPage p hp).aligned) hS, h.isPage, h.nodup⟩

theorem freeList_lt (h : FreePages s l) : s.freeList < 2 ^ 64 := by
  cases l with
  | nil =>
    rw [show s.freeList = 0 from h.chain]
    exact Nat.two_pow_pos 64
  | cons p l =>
    have hp := (h.isPage p List.mem_cons_self).lt
    rw [h.chain.1]
    omega

theorem unique {l' : List ℕ} (h : FreePages s l) (h' : FreePages s l') : l = l' :=
  h.chain.unique h'.chain

end FreePages

/-- The clearing loop clears the page and touches no other. -/
theorem clearPage_apply (m : Mem) (p a : ℕ) :
    clearPage m p a = if p ≤ a ∧ a < p + 4096 then 0 else m a :=
  storeLoop_apply (fun _ _ _ _ => rfl) a

attribute [irreducible] clearPage

theorem eqOff_clearPage (m : Mem) {p : ℕ} (hp : PageAligned p) : EqOff {p} m (clearPage m p) := by
  intro a ha
  rw [clearPage_apply, if_neg]
  intro hin
  apply ha
  rw [Multiset.mem_singleton, show a = p + (a - p) by omega]
  exact pageOf_add hp (by omega)

variable {s : Phys} {l : List ℕ} {p : ℕ}

/-- `alloc_page` hands out the first free page, cleared, and touches no other page; it hangs
only if there is none. -/
theorem allocPage_spec (h : FreePages s l) :
    Outcome (l.length < 1)
      (fun r => ∃ l', l = r.1 :: l' ∧ FreePages r.2 l' ∧ EqOff {r.1} s.mem r.2.mem ∧
        ∀ b < 4096, r.2.mem (r.1 + b) = 0) (allocPage s) := by
  rw [allocPage]
  split_ifs with hne
  · obtain ⟨l', rfl, htail⟩ := h.chain.exists_cons hne
    have hp := (h.isPage _ List.mem_cons_self).aligned
    have hnot := (List.nodup_cons.mp h.nodup).1
    have hal : ∀ q ∈ l', PageAligned q :=
      fun q hq => (h.isPage q (List.mem_cons_of_mem _ hq)).aligned
    -- the page is cleared after it has left the list, so its link does not matter
    have hchain := htail.eqOff (eqOff_clearPage s.mem hp) hal (by
      intro q hq
      rw [Multiset.mem_singleton]
      rintro rfl
      exact hnot hq)
    refine ⟨l', rfl, ⟨hchain, ?_, (List.nodup_cons.mp h.nodup).2⟩, eqOff_clearPage s.mem hp, ?_⟩
    · exact fun q hq => h.isPage q (List.mem_cons_of_mem _ hq)
    · intro b hb
      change clearPage s.mem s.freeList (s.freeList + b) = 0
      rw [clearPage_apply, if_pos (by omega)]
  · -- the list is empty, and the source loops
    have hnil : Chain s.mem 0 l := by
      rw [not_not] at hne
      exact hne ▸ h.chain
    rw [Chain.nil_iff.mp hnil]
    exact Nat.zero_lt_one

/-- `free_page` puts the page in front of the list and touches no other page. -/
theorem freePage_spec (h : FreePages s l) (hp : IsPage p) (hnot : p ∉ l) :
    FreePages (freePage s p) (p :: l) ∧ EqOff {p} s.mem (freePage s p).mem := by
  rw [freePage, if_neg hp.pos.ne']
  refine ⟨⟨?_, ?_, List.nodup_cons.mpr ⟨hnot, h.nodup⟩⟩, eqOff_storeWord_head s.mem hp.aligned _⟩
  · exact h.chain.push (fun q hq => (h.isPage q hq).aligned) hp.aligned hp.pos.ne' hnot
      h.freeList_lt
  · intro q hq
    rcases List.mem_cons.mp hq with rfl | hmem
    · exact hp
    · exact h.isPage q hmem

end RiscvKernel
