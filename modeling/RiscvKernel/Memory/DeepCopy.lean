import RiscvKernel.Memory.Boot
import RiscvKernel.Memory.Owned
import RiscvKernel.Memory.UserSpace

/-!
# A copy of an address space

`copy_user_page_table` and `free_user_page_table` as their callers see them, on any page table
whose tables and frames are its own (`UserTree`). A leaf entry may also lead into the kernel image,
whose pages nobody owns; the copy has a frame of its own there too.

* `copy_is_deep`: the copy maps what the source maps, on pages that were free.
* `exists_initialTree`: the page table of the first task of a kernel that has booted.
-/

namespace RiscvKernel

open ByteMemory RadixTable EntryFormat

/-- A page table of a task, beside the free list and the kernel's own table `root`. What it owns are
its tables and its frames from `kernelEnd` on. -/
structure UserTree (kernelEnd root : ℕ) (s : Phys) (pgd : ℕ) (free : List ℕ) : Prop where
  aligned : PageAligned pgd
  rootAligned : PageAligned root
  isFree : FreePages s free
  /-- No page is reached twice, and none that is reached is free. -/
  nodup : ((free : Multiset ℕ) + owned kernelEnd s.mem 3 pgd).Nodup
  isPage : ∀ x ∈ owned kernelEnd s.mem 3 pgd, IsPage x
  /-- The kernel image is not free. -/
  above : ∀ x ∈ free, kernelEnd ≤ x
  rootNotFree : root ∉ free
  /-- Only empty entries are equal to those of the kernel's table. -/
  shares : SharesNothing s.mem pgd root

namespace UserTree

variable {kernelEnd root pgd : ℕ} {s : Phys} {free : List ℕ}

theorem notMem_free (h : UserTree kernelEnd root s pgd free) :
    ∀ x ∈ owned kernelEnd s.mem 3 pgd, x ∉ free := by
  intro x hx hfree
  have hle : ({x} : Multiset ℕ) + {x} ≤ ↑free + owned kernelEnd s.mem 3 pgd := by
    gcongr
    · rwa [Multiset.singleton_le, Multiset.mem_coe]
    · rwa [Multiset.singleton_le]
  have htwice := Multiset.nodup_of_le hle h.nodup
  rw [Multiset.singleton_add, Multiset.nodup_cons] at htwice
  exact htwice.1 (Multiset.mem_singleton_self x)

/-- No page reached is free, in the kernel image or not. -/
theorem pages_notMem_free (h : UserTree kernelEnd root s pgd free) :
    ∀ x ∈ sv39.pages s.mem 3 pgd, x ∉ free :=
  fun x hx hfree => h.notMem_free x (mem_owned_of_mem_pages hx (h.above x hfree)) hfree

/-- The frame of an address is none of the tables. -/
theorem frame_notMem_tables {va e : Word} (h : UserTree kernelEnd root s pgd free)
    (he : leafEntry s.mem pgd va = some e) (hge : kernelEnd ≤ (pteToPa e).toNat) :
    (pteToPa e).toNat ∉ sv39.tables s.mem 3 pgd := by
  intro hmem
  have hnd := (Multiset.nodup_add.mp h.nodup).2.1
  have hle := Multiset.nodup_of_le (tables_add_frame_le he hge) hnd
  exact Multiset.disjoint_left.mp (Multiset.nodup_add.mp hle).2.2 hmem
    (Multiset.mem_singleton_self _)

end UserTree

/-! ### The first address space -/

variable {root : ℕ} {s : Phys} {free : List ℕ}

/-- A page table as `init_user_address_space` leaves it, beside the kernel's own. The pages behind
the kernel image are those of the two tables and the free ones. -/
structure InitialTree {n : ℕ} (L : Layout n) (root : ℕ) (s : Phys) (pgd : ℕ) (free : List ℕ)
    (maps : List Mapping) (used : Multiset ℕ) : Prop where
  space : ∃ stackPa, InitialSpace L s.mem pgd stackPa maps used
  pages : ∀ x ∈ maps, BootPage L s.mem x
  isFree : FreePages s free
  rootAligned : PageAligned root
  managed : ↑free + used + sv39.tables s.mem 3 root = L.managed

namespace InitialTree

variable {n : ℕ} {L : Layout n} {pgd : ℕ} {maps : List Mapping} {used : Multiset ℕ}

theorem owned_eq (h : InitialTree L root s pgd free maps used) :
    owned L.kernelEnd s.mem 3 pgd = used := by
  obtain ⟨_, hspace⟩ := h.space
  exact hspace.built.owned_eq hspace.slotsDiffer

theorem mem_managed_of_used (h : InitialTree L root s pgd free maps used) {x : ℕ}
    (hx : x ∈ used) : x ∈ L.managed := by
  rw [← h.managed, add_assoc, Multiset.mem_add, Multiset.mem_add]
  exact Or.inr (Or.inl hx)

theorem mem_managed_of_free (h : InitialTree L root s pgd free maps used) {x : ℕ}
    (hx : x ∈ free) : x ∈ L.managed := by
  rw [← h.managed, add_assoc, Multiset.mem_add]
  exact Or.inl hx

/-- The tables of the kernel are neither free nor used. -/
theorem rootApart (h : InitialTree L root s pgd free maps used) {x : ℕ}
    (hx : x ∈ sv39.tables s.mem 3 root) : x ∉ (free : Multiset ℕ) + used := by
  have hnd := L.nodup_managed
  rw [← h.managed, Multiset.nodup_add] at hnd
  exact fun hmem => Multiset.disjoint_left.mp hnd.2.2 hmem hx

theorem userTree (h : InitialTree L root s pgd free maps used) :
    UserTree L.kernelEnd root s pgd free := by
  obtain ⟨_, hspace⟩ := h.space
  have hnd := L.nodup_managed
  rw [← h.managed, Multiset.nodup_add] at hnd
  refine ⟨hspace.built.aligned, h.rootAligned, h.isFree, ?_, fun x hx => ?_, fun x hx => ?_,
    fun hmem => ?_, sharesNothing_of_apart fun x hx hroot => ?_⟩
  · rw [h.owned_eq]
    exact hnd.1
  · rw [h.owned_eq] at hx
    exact Layout.isPage_of_mem_managed (h.mem_managed_of_used hx)
  · exact (Layout.mem_managed.mp (h.mem_managed_of_free hx)).2.1
  · exact h.rootApart self_mem_tables (Multiset.mem_add.mpr (Or.inl hmem))
  · have hused := Multiset.mem_of_le hspace.built.tables_le hx
    exact h.rootApart hroot (Multiset.mem_add.mpr (Or.inr hused))

/-- The entry of a page that was mapped. -/
theorem exists_leafEntry (h : InitialTree L root s pgd free maps used) (va : Word)
    (hva : va ∈ maps.map Mapping.va) :
    ∃ e, leafEntry s.mem pgd va = some e ∧
      if textStart ≤ va.toNat then (pteToPa e).toNat = va.toNat
      else (pteToPa e).toNat ∈ used := by
  obtain ⟨_, hspace⟩ := h.space
  obtain ⟨x, hx, rfl⟩ := List.mem_map.mp hva
  have hpage : x.va = pageVa x.va := by
    apply BitVec.eq_of_toNat_eq
    have := (hspace.user x hx).aligned
    rw [pageVa_toNat]
    omega
  refine ⟨x.entry, leafEntry_of_mem hspace.built hspace.slotsDiffer hx hpage, ?_⟩
  have hboot := (h.pages x hx).2
  rw [(hspace.user x hx).ok.pteToPa_entry]
  split_ifs at hboot ⊢
  · exact hboot
  · exact hspace.built.tables_add ▸ Multiset.mem_add.mpr (Or.inr (mem_framesOf hx hboot.1))

end InitialTree

/-- What `page_init`, `mmu_init` and `task_init` leave behind if there is enough memory. -/
theorem exists_initialTree {n : ℕ} (L : Layout n) (hroom : 135 + L.initPages ≤ L.managed.card)
    (m : Mem) : ∃ (root : ℕ) (s : Phys) (pgd : ℕ) (free : List ℕ) (maps : List Mapping)
      (used : Multiset ℕ), InitialTree L root s pgd free maps used ∧
        L.managed.card ≤ free.length + 135 + L.initPages ∧ used.card ≤ 2 + L.initPages ∧
        EqOff L.managed m s.mem := by
  obtain ⟨s₀, free₀, -, hf₀, hmanaged, hoff₀⟩ := pageInit_spec L m
  have hcard : L.managed.card = free₀.length := by rw [← hmanaged, Multiset.coe_card]
  -- the kernel's own table
  obtain ⟨⟨root, s₁⟩, -, tables, free₁, hlen, rfl, hf₁, hrootAl, htables, hoff₁⟩ :=
    (mmuInit_spec hf₀).exists_of_not_stuck (by omega)
  rw [List.length_append] at hcard
  -- the page table of the task and its stack page
  obtain ⟨⟨pgd, s₂⟩, -, free₂, rfl, hf₂, hoff₂, hz₂⟩ :=
    (allocPage_spec hf₁).exists_of_not_stuck (by omega)
  rw [List.length_cons] at hcard
  obtain ⟨⟨stackPa, s₃⟩, -, free₃, rfl, hf₃, hoff₃, hz₃⟩ :=
    (allocPage_spec hf₂).exists_of_not_stuck (by omega)
  rw [List.length_cons] at hcard
  dsimp only at hf₁ htables hoff₁ hf₂ hoff₂ hz₂ hf₃ hoff₃ hz₃
  have hnd := hf₀.nodup
  have hge : ∀ q ∈ tables ++ pgd :: stackPa :: free₃, L.kernelEnd ≤ q := by
    intro q hq
    rw [← Multiset.mem_coe, hmanaged] at hq
    exact (Layout.mem_managed.mp hq).2.1
  have hnd' := hnd.of_append_right
  simp only [List.nodup_cons, List.mem_cons, not_or] at hnd'
  have hpgd : IsPage pgd := hf₁.isPage _ List.mem_cons_self
  have hbuilding : Building L.kernelEnd s₃ pgd [] {pgd} free₃ := by
    refine ⟨Built.of_cleared hpgd.aligned fun b hb => ?_, hf₃, ?_⟩
    · rw [hoff₃.byte_eq hpgd.aligned hb (by simpa using hnd'.1.1), hz₂ b hb]
    · rw [add_comm, Multiset.singleton_add, Multiset.nodup_cons]
      exact ⟨hnd'.1.2, hnd'.2.2⟩
  obtain ⟨s₄, -, maps, taken, free₄, rfl, hlen₄, hf₄, hspace, hpages, hoff₄⟩ :=
    (initUserAddressSpace_spec hbuilding (fun q hq => hge q (by simp [hq]))
      (hf₂.isPage _ List.mem_cons_self) (hge stackPa (by simp)) hnd'.2.1 (Ne.symm hnd'.1.1)
      hz₃).exists_of_not_stuck (by omega)
  rw [List.length_append] at hcard
  -- the pages are used in the order in which they were free
  have hsplit : (↑(tables ++ pgd :: stackPa :: (taken ++ free₄)) : Multiset ℕ)
      = ↑free₄ + ({pgd} + {stackPa} + ↑taken) + ↑tables := by
    simp only [← Multiset.coe_add, ← Multiset.cons_coe, ← Multiset.singleton_add]
    abel
  have hoff : EqOff ({pgd} + {stackPa} + ↑taken) s₁.mem s₄.mem :=
    ((hoff₂.trans hoff₃).trans hoff₄).mono fun x hx => by
      simp only [Multiset.mem_add] at hx ⊢
      tauto
  have happart : ∀ x ∈ sv39.tables s₁.mem 3 root,
      x ∉ ({pgd} + {stackPa} + ↑taken : Multiset ℕ) := by
    rw [← Multiset.coe_nodup, hsplit, Multiset.nodup_add] at hnd
    intro x hx hused
    rw [htables] at hx
    exact Multiset.disjoint_left.mp hnd.2.2 (Multiset.mem_add.mpr (Or.inr hused)) hx
  have hmanaged' : ↑free₄ + ({pgd} + {stackPa} + ↑taken) + sv39.tables s₄.mem 3 root
      = L.managed := by
    rw [tables_eqOff hoff hrootAl happart, htables, ← hmanaged, hsplit]
  refine ⟨root, s₄, pgd, free₄, maps, _, ⟨⟨stackPa, hspace⟩, hpages, hf₄, hrootAl, hmanaged'⟩,
    by omega, ?_, ?_⟩
  · simp only [Multiset.card_add, Multiset.card_singleton, Multiset.coe_card]
    omega
  · refine ((hoff₀.trans hoff₁).trans hoff).mono fun x hx => ?_
    rw [← hmanaged, hsplit] at *
    simp only [Multiset.mem_add] at hx ⊢
    tauto

/-! ### Copying -/

variable {kernelEnd src : ℕ}

/-- `copy_user_page_table` returns a page table that maps the same addresses as the source, with the
same flags at every level and the same bytes in every frame. Its pages are the first free ones,
each reached once; no other page is written, and no other leaves the free list. -/
theorem copy_is_deep (h : UserTree kernelEnd root s src free)
    (hfree : (sv39.pages s.mem 3 src).card ≤ free.length) :
    ∃ (dst : ℕ) (s' : Phys) (new free' : List ℕ),
      copyUserPageTable root src s = some (dst, s') ∧
      sv39.SameTree pteFlags s.mem s'.mem 3 src dst ∧
      SameSpace s.mem s'.mem src dst ∧
      sv39.pages s'.mem 3 dst = ↑new ∧ new.Nodup ∧
      (∀ x ∈ new, x ∉ sv39.pages s.mem 3 src) ∧
      sv39.pages s'.mem 3 src = sv39.pages s.mem 3 src ∧
      (∀ p ∈ sv39.pages s.mem 3 src, ∀ b < 4096, s'.mem (p + b) = s.mem (p + b)) ∧
      EqOff ↑new s.mem s'.mem ∧
      free = new ++ free' ∧ FreePages s' free' := by
  have hspec := copyUserPageTable_spec h.isFree h.aligned h.rootAligned h.rootNotFree
    h.pages_notMem_free h.shares
  obtain ⟨⟨dst, s'⟩, hcopy, new, free', hsplit, hf', -, hcopied⟩ :=
    hspec.exists_of_not_stuck (by omega)
  -- the pages of the copy were free, and those of the source were not
  have hapart : ∀ x ∈ sv39.pages s.mem 3 src, x ∉ (new : Multiset ℕ) := by
    intro x hx hnew
    apply h.pages_notMem_free x hx
    rw [hsplit]
    exact List.mem_append_left _ hnew
  have hnd := h.isFree.nodup
  rw [hsplit] at hnd
  refine ⟨dst, s', new, free', hcopy, hcopied.same, sameSpace_of_sameTree hcopied.same,
    hcopied.pages, hnd.of_append_left, fun x hx hsrc => hapart x hsrc hx,
    pages_eqOff hcopied.eqOff h.aligned hapart, ?_, hcopied.eqOff, hsplit, hf'⟩
  intro p hp b hb
  exact hcopied.eqOff.byte_eq (aligned_of_mem_pages h.aligned hp) hb (hapart p hp)

/-- The first task has a stack page, and text full of ones in the kernel image. -/
theorem copy_is_deep_initialTree :
    ∃ (root src dst : ℕ) (s s' : Phys) (stack text : Word),
      copyUserPageTable root src s = some (dst, s') ∧ SameSpace s.mem s'.mem src dst ∧
      leafEntry s.mem src userStackPageVa = some stack ∧
      twoSlots.kernelEnd ≤ (pteToPa stack).toNat ∧
      leafEntry s.mem src 0x80002000#64 = some text ∧
      (pteToPa text).toNat = 0x80002000 ∧ s.mem 0x80002000 = 1 := by
  obtain ⟨hcard, hpages⟩ := twoSlots_card
  obtain ⟨root, s, src, free, maps, used, h, hfree, hused, hoff⟩ :=
    exists_initialTree twoSlots (by omega) fun _ => 1
  obtain ⟨_, hspace⟩ := h.space
  have hlen := hspace.card_pages
  obtain ⟨dst, s', -, -, hcopy, -, hsame, -⟩ := copy_is_deep h.userTree (by omega)
  obtain ⟨stack, hstack, hframe⟩ := h.exists_leafEntry userStackPageVa
    (by rw [hspace.vas]; decide)
  obtain ⟨text, htext, hkernel⟩ := h.exists_leafEntry 0x80002000#64
    (by rw [hspace.vas]; decide)
  rw [if_neg (by decide)] at hframe
  rw [if_pos (by decide)] at hkernel
  refine ⟨root, src, dst, s, s', stack, text, hcopy, hsame, hstack,
    (Layout.mem_managed.mp (h.mem_managed_of_used hframe)).2.1, htext, hkernel, ?_⟩
  exact hoff _ fun hmem => absurd (Layout.mem_managed.mp hmem).2.1 (by decide)

end RiscvKernel
