import RiscvKernel.Memory.DeepCopy

/-!
# The order in which a page table is freed

`free_page` writes a link into the page it is given, while the loops of `free_user_page_table` still
walk the tree. Here the same loops run over a state that also records which pages were read and
freed, in this order (`Traced`); without the record they are those of the source
(`freeUserPageTable_traced`).

* `free_gives_back_tree`: what is owned is freed once each, no entry is read from a page that has
  been freed, and freeing a copy restores the free pages.
-/

namespace RiscvKernel

open ByteMemory RadixTable EntryFormat

/-! ### The record -/

/-- What the loops do to a page: read an entry of it, or give it to `free_page`. -/
inductive Access
  | read (page : ℕ)
  | free (page : ℕ)
  deriving DecidableEq

/-- The kernel's state with what has been done so far, the latest last. -/
structure Traced where
  phys : Phys
  log : List Access

/-- No entry is read from a page that was freed before. -/
def ReadFirst (log : List Access) : Prop :=
  log.Pairwise fun earlier later => ∀ page, later = .read page → earlier ≠ .free page

/-- The free pages, among them those that the record says were freed. -/
structure Logged (t : Traced) (free : List ℕ) : Prop where
  isFree : FreePages t.phys free
  readFirst : ReadFirst t.log
  freed : ∀ page, .free page ∈ t.log → page ∈ free

/-- An entry of the page is read. -/
def Traced.look (t : Traced) (page : ℕ) : Traced := { t with log := t.log ++ [.read page] }

/-- `free_page`. -/
def Traced.give (t : Traced) (page : ℕ) : Traced where
  phys := freePage t.phys page
  log := t.log ++ [.free page]

variable {t : Traced} {free : List ℕ} {p : ℕ}

theorem Logged.look (h : Logged t free) (hp : p ∉ free) : Logged (t.look p) free where
  isFree := h.isFree
  readFirst := by
    refine List.pairwise_append.mpr ⟨h.readFirst, List.pairwise_singleton _ _, ?_⟩
    intro earlier hearlier later hlater page hread
    rw [List.mem_singleton] at hlater
    obtain rfl : p = page := Access.read.inj (hlater.symm.trans hread)
    rintro rfl
    exact hp (h.freed p hearlier)
  freed page hmem := by
    rw [Traced.look, List.mem_append, List.mem_singleton] at hmem
    exact h.freed page (hmem.resolve_right (by simp))

theorem Logged.give (h : Logged t free) (hpage : IsPage p) (hp : p ∉ free) :
    Logged (t.give p) (p :: free) where
  isFree := (freePage_spec h.isFree hpage hp).1
  readFirst := by
    refine List.pairwise_append.mpr ⟨h.readFirst, List.pairwise_singleton _ _, ?_⟩
    intro earlier _ later hlater page hread
    rw [List.mem_singleton] at hlater
    cases hlater.symm.trans hread
  freed page hmem := by
    rw [Traced.give, List.mem_append, List.mem_singleton, Access.free.injEq] at hmem
    rw [List.mem_cons]
    exact hmem.symm.imp id (h.freed page)

/-- The kernel's state with the record. -/
def tracedReclaimer : Reclaimer Traced where
  mem t := t.phys.mem
  look := Traced.look
  give := Traced.give
  Free := Logged
  mem_look _ _ := rfl
  free_look _ _ _ h hp := h.look hp
  free_give _ _ _ h hpage hp := ⟨h.give hpage hp, (freePage_spec h.isFree hpage hp).2⟩

/-! ### Forgetting the record -/

section Forget

variable {σ τ : Type} {R : Reclaimer σ} {R' : Reclaimer τ} {f : σ → τ}

/-- A map of states that agrees on memory, reads and frees agrees on the whole function. -/
theorem Reclaimer.freeUserPageTable_map (hmem : ∀ s, R'.mem (f s) = R.mem s)
    (hlook : ∀ s p, R'.look (f s) p = f (R.look s p))
    (hgive : ∀ s p, R'.give (f s) p = f (R.give s p)) (kernelEnd root pgd : ℕ) (s : σ) :
    R'.freeUserPageTable kernelEnd root pgd (f s) =
      f (R.freeUserPageTable kernelEnd root pgd s) := by
  have heach : ∀ {body : σ → ℕ → σ} {body' : τ → ℕ → τ},
      (∀ s i, body' (f s) i = f (body s i)) →
      ∀ s, Reclaimer.eachEntry body' (f s) = f (Reclaimer.eachEntry body s) :=
    fun hbody s => List.foldl_hom f hbody
  have hleaf : ∀ table s i, R'.freeLeaf kernelEnd table (f s) i =
      f (R.freeLeaf kernelEnd table s i) := by
    intro table s i
    simp only [Reclaimer.freeLeaf, hmem, hlook, hgive]
    split_ifs <;> rfl
  have hmiddle : ∀ table s i,
      R'.freeMiddle kernelEnd table (f s) i = f (R.freeMiddle kernelEnd table s i) := by
    intro table s i
    simp only [Reclaimer.freeMiddle, hmem, hlook, heach (hleaf _), hgive]
    split_ifs <;> rfl
  have htop : ∀ s i, R'.freeTop kernelEnd root pgd (f s) i =
      f (R.freeTop kernelEnd root pgd s i) := by
    intro s i
    simp only [Reclaimer.freeTop, hmem, hlook, heach (hmiddle _), hgive]
    split_ifs <;> rfl
  rw [Reclaimer.freeUserPageTable, Reclaimer.freeUserPageTable, heach htop, hgive]

end Forget

/-- Without the record, the run is that of the source. -/
theorem freeUserPageTable_traced (kernelEnd root pgd : ℕ) (t : Traced) :
    (tracedReclaimer.freeUserPageTable kernelEnd root pgd t).phys
      = freeUserPageTable kernelEnd root pgd t.phys := by
  have hmap : physReclaimer.freeUserPageTable kernelEnd root pgd t.phys
      = (tracedReclaimer.freeUserPageTable kernelEnd root pgd t).phys :=
    Reclaimer.freeUserPageTable_map (R := tracedReclaimer) (f := Traced.phys) (fun _ => rfl)
      (fun _ _ => rfl) (fun _ _ => rfl) kernelEnd root pgd t
  rw [← hmap, physReclaimer_freeUserPageTable]

/-! ### Freeing and copying -/

/-- A page table whose tables and frames belong to it alone; its other frames lie in the kernel
image. -/
structure PrivateTree (kernelEnd root : ℕ) (s : Phys) (pgd : ℕ) (free : List ℕ) : Prop
    extends UserTree kernelEnd root s pgd free where
  tablesAbove : ∀ x ∈ sv39.tables s.mem 3 pgd, kernelEnd ≤ x
  /-- The kernel's own table and its tables are neither free nor part of it. -/
  rootApart : ∀ x ∈ sv39.tables s.mem 3 root, x ∉ (free : Multiset ℕ) + owned kernelEnd s.mem 3 pgd

variable {kernelEnd root pgd : ℕ} {s s' : Phys} {x dst : ℕ}

namespace PrivateTree

theorem owned_above (h : PrivateTree kernelEnd root s pgd free) :
    ∀ x ∈ owned kernelEnd s.mem 3 pgd, kernelEnd ≤ x :=
  fun x hx => (mem_owned hx).elim (h.tablesAbove x) id

theorem root_notMem (h : PrivateTree kernelEnd root s pgd free) :
    root ∉ (free : Multiset ℕ) + owned kernelEnd s.mem 3 pgd :=
  h.rootApart root self_mem_tables

/-- A copy is such a page table again, and owns the pages it has taken. -/
theorem copyUserPageTable (h : PrivateTree kernelEnd root s pgd free) :
    Outcome (free.length < (sv39.pages s.mem 3 pgd).card)
      (fun r => ∃ new free' : List ℕ, free = new ++ free' ∧
        PrivateTree kernelEnd root r.2 r.1 free' ∧ owned kernelEnd r.2.mem 3 r.1 = ↑new ∧
        AddressSpaceCopied s r.2 pgd r.1 new)
      (RiscvKernel.copyUserPageTable root pgd s) := by
  refine (copyUserPageTable_spec h.isFree h.aligned h.rootAligned h.rootNotFree h.pages_notMem_free
    h.shares).mono id ?_
  rintro ⟨dst, s'⟩ ⟨new, free', rfl, hf', hdst, hcopied⟩
  dsimp only at hf' hdst hcopied ⊢
  have hnew : ∀ x ∈ new, x ∈ new ++ free' := fun x hx => List.mem_append_left _ hx
  have hpages : ∀ x ∈ sv39.pages s'.mem 3 dst, kernelEnd ≤ x := by
    intro x hx
    rw [hcopied.pages] at hx
    exact h.above x (hnew x hx)
  have howned : owned kernelEnd s'.mem 3 dst = ↑new := by
    rw [owned_eq_pages hpages, hcopied.pages]
  -- the kernel's tables were not free, so that the copy did not touch them
  have hroot : ∀ x ∈ sv39.tables s.mem 3 root, x ∉ new ++ free' :=
    fun x hx hfree => h.rootApart x hx (Multiset.mem_add.mpr (Or.inl hfree))
  have htables : sv39.tables s'.mem 3 root = sv39.tables s.mem 3 root :=
    tables_eqOff hcopied.eqOff h.rootAligned fun x hx hmem => hroot x hx (hnew x hmem)
  have happend : (free' : Multiset ℕ) + owned kernelEnd s'.mem 3 dst = ↑(new ++ free') := by
    rw [howned, add_comm, Multiset.coe_add]
  have hdstPages : ∀ x ∈ sv39.tables s'.mem 3 dst, x ∈ new := by
    intro x hx
    have hmem := Multiset.mem_of_le (tables_le_pages _ _ _) hx
    rwa [hcopied.pages] at hmem
  refine ⟨new, free', rfl, ⟨⟨?_, h.rootAligned, hf', ?_, ?_, ?_, ?_, ?_⟩, ?_, ?_⟩, howned, hcopied⟩
  · exact (h.isFree.isPage dst (hnew dst hdst)).aligned
  · rw [happend]
    exact h.isFree.nodup
  · rw [howned]
    exact fun x hx => h.isFree.isPage x (hnew x hx)
  · exact fun x hx => h.above x (List.mem_append_right _ hx)
  · exact fun hmem => h.rootNotFree (List.mem_append_right _ hmem)
  · apply sharesNothing_of_apart
    intro x hx hmem
    rw [htables] at hmem
    exact hroot x hmem (hnew x (hdstPages x hx))
  · exact fun x hx => h.above x (hnew x (hdstPages x hx))
  · rw [htables, happend]
    exact hroot

/-- What is owned goes back to the free list. -/
theorem freeUserPageTable (h : PrivateTree kernelEnd root s pgd free) :
    ∃ free' : List ℕ, FreePages (RiscvKernel.freeUserPageTable kernelEnd root pgd s) free' ∧
      (free' : Multiset ℕ) = ↑free + owned kernelEnd s.mem 3 pgd ∧
      EqOff (owned kernelEnd s.mem 3 pgd) s.mem
        (RiscvKernel.freeUserPageTable kernelEnd root pgd s).mem :=
  freeUserPageTable_spec h.isFree h.aligned h.rootAligned
    (fun hmem => h.root_notMem (Multiset.mem_add.mpr (Or.inr hmem))) h.shares h.nodup h.isPage

/-- The loops give it back without reading an entry from a page that has been freed. -/
theorem exists_log (h : PrivateTree kernelEnd root s pgd free) :
    ∃ log, tracedReclaimer.freeUserPageTable kernelEnd root pgd ⟨s, []⟩
      = ⟨RiscvKernel.freeUserPageTable kernelEnd root pgd s, log⟩ ∧ ReadFirst log := by
  have hstart : Logged ⟨s, []⟩ free := ⟨h.isFree, List.Pairwise.nil, by simp⟩
  have hrootOut := h.root_notMem
  rw [Multiset.mem_add, not_or] at hrootOut
  obtain ⟨free', hlogged, -⟩ := Reclaimer.freeUserPageTable_spec (R := tracedReclaimer)
    hstart h.aligned h.rootAligned
    (fun t free' hsub ht => ht.look fun hmem => (hsub root hmem).elim hrootOut.1 hrootOut.2)
    hrootOut.2 h.shares h.nodup h.isPage
  refine ⟨_, ?_, hlogged.readFirst⟩
  rw [← freeUserPageTable_traced kernelEnd root pgd ⟨s, []⟩]

end PrivateTree

theorem InitialTree.privateTree {n : ℕ} {L : Layout n} {maps : List Mapping} {used : Multiset ℕ}
    (h : InitialTree L root s pgd free maps used) : PrivateTree L.kernelEnd root s pgd free where
  toUserTree := h.userTree
  tablesAbove x hx := by
    obtain ⟨_, hspace⟩ := h.space
    have hused := Multiset.mem_of_le hspace.built.tables_le hx
    exact (Layout.mem_managed.mp (h.mem_managed_of_used hused)).2.1
  rootApart x hx := by
    rw [h.owned_eq]
    exact h.rootApart hx

/-- `free_user_page_table` adds to the free list the pages that the table owns, each once, and none
of the kernel image or of the kernel's own table. It writes to no other page, and it reads no entry
from a page that has been freed. Freeing a copy restores the free pages. -/
theorem free_gives_back_tree (h : PrivateTree kernelEnd root s pgd free) :
    (∃ free' : List ℕ, FreePages (freeUserPageTable kernelEnd root pgd s) free' ∧
      (free' : Multiset ℕ) = ↑free + owned kernelEnd s.mem 3 pgd ∧ free'.Nodup ∧
      ∀ x ∈ free', kernelEnd ≤ x ∧ x ∉ sv39.tables s.mem 3 root) ∧
    EqOff (owned kernelEnd s.mem 3 pgd) s.mem (freeUserPageTable kernelEnd root pgd s).mem ∧
    (∃ log, tracedReclaimer.freeUserPageTable kernelEnd root pgd ⟨s, []⟩
      = ⟨freeUserPageTable kernelEnd root pgd s, log⟩ ∧ ReadFirst log) ∧
    ∀ dst s', copyUserPageTable root pgd s = some (dst, s') →
      ∃ free' : List ℕ, FreePages (freeUserPageTable kernelEnd root dst s') free' ∧
        (free' : Multiset ℕ) = ↑free := by
  obtain ⟨free', hf', heq, hoff⟩ := h.freeUserPageTable
  refine ⟨⟨free', hf', heq, hf'.nodup, fun x hx => ?_⟩, hoff, h.exists_log, fun dst s' hcopy => ?_⟩
  · rw [← Multiset.mem_coe, heq] at hx
    refine ⟨?_, fun hroot => h.rootApart x hroot hx⟩
    exact (Multiset.mem_add.mp hx).elim (h.above x) (h.owned_above x)
  · obtain ⟨new, rest, rfl, hdst, howned, -⟩ := h.copyUserPageTable.post_of_eq_some hcopy
    obtain ⟨free'', hf'', heq'', -⟩ := hdst.freeUserPageTable
    refine ⟨free'', hf'', ?_⟩
    dsimp only at howned heq''
    rw [heq'', howned, add_comm, Multiset.coe_add]

/-- The stack page of the first task goes back to the free list, and its text, which is kernel
text, does not; the pages of a copy are free again. -/
theorem free_gives_back_tree_initialTree :
    ∃ (root pgd dst : ℕ) (s s' : Phys) (stack text : Word) (free free' free'' : List ℕ),
      leafEntry s.mem pgd userStackPageVa = some stack ∧
      leafEntry s.mem pgd 0x80002000#64 = some text ∧ FreePages s free ∧
      FreePages (freeUserPageTable twoSlots.kernelEnd root pgd s) free' ∧
      (pteToPa stack).toNat ∈ free' ∧ (pteToPa text).toNat ∉ free' ∧
      copyUserPageTable root pgd s = some (dst, s') ∧
      FreePages (freeUserPageTable twoSlots.kernelEnd root dst s') free'' ∧
      (free'' : Multiset ℕ) = ↑free := by
  obtain ⟨hcard, hpages⟩ := twoSlots_card
  obtain ⟨root, s, pgd, free, maps, used, h, hfree, hused, -⟩ :=
    exists_initialTree twoSlots (by omega) fun _ => 1
  obtain ⟨_, hspace⟩ := h.space
  have hlen := hspace.card_pages
  obtain ⟨stack, hstack, hframe⟩ := h.exists_leafEntry userStackPageVa
    (by rw [hspace.vas]; decide)
  obtain ⟨text, htext, hkernel⟩ := h.exists_leafEntry 0x80002000#64
    (by rw [hspace.vas]; decide)
  rw [if_neg (by decide)] at hframe
  rw [if_pos (by decide)] at hkernel
  obtain ⟨⟨free', hf', hback, -, hmem⟩, -, -, hcopied⟩ := free_gives_back_tree h.privateTree
  obtain ⟨⟨dst, s'⟩, hcopy, -⟩ :=
    h.privateTree.copyUserPageTable.exists_of_not_stuck (by omega)
  obtain ⟨free'', hf'', hsame⟩ := hcopied dst s' hcopy
  refine ⟨root, pgd, dst, s, s', stack, text, free, free', free'', hstack, htext, h.isFree, hf',
    ?_, fun hin => ?_, hcopy, hf'', hsame⟩
  · rw [← Multiset.mem_coe, hback, h.owned_eq, Multiset.mem_add]
    exact Or.inr hframe
  · have hge := (hmem _ hin).1
    rw [hkernel] at hge
    revert hge
    decide

end RiscvKernel
