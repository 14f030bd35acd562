import RiscvKernel.Memory.Address
import RiscvKernel.Memory.CopyTable
import RiscvKernel.Memory.FreeTable

/-!
# The pages of a page table

What a page table owns, how that relates to the pages and the frames it leads to, and when two page
tables map the same.

* `tables_add_frame_le`, `frame_mem_owned`: the frame of an address is owned besides the tables.
* `owned_eqOff`, `leafEntry_eqOff`: a change off the owned pages keeps everything.
* `SameSpace`: the same addresses with the same flags and the same bytes.
-/

namespace RiscvKernel

open ByteMemory RadixTable EntryFormat

variable {kernelEnd p q x : ℕ} {m m' : Mem} {S : Multiset ℕ} {s : Phys} {root : ℕ}

/-! ### Owned pages -/

theorem self_mem_owned : p ∈ owned kernelEnd m 3 p := self_mem_nodes

theorem owned_eqOff (hm : EqOff S m m') (hp : PageAligned p)
    (hS : ∀ x ∈ owned kernelEnd m 3 p, x ∉ S) :
    owned kernelEnd m' 3 p = owned kernelEnd m 3 p :=
  nodes_eqOff hm hp fun x hx => hS x (Multiset.mem_of_le (tables_le_nodes _ _ _ _) hx)

theorem count_owned (hx : kernelEnd ≤ x) :
    (owned kernelEnd m 3 p).count x = (sv39.pages m 3 p).count x := by
  refine count_nodes_congr (fun q => ?_) m 3 p
  rw [ownedFrame]
  split_ifs with hq
  · rfl
  · rw [Multiset.count_zero, eq_comm, Multiset.count_eq_zero, Multiset.mem_singleton]
    omega

/-- A page of the tree outside the kernel image is owned. -/
theorem mem_owned_of_mem_pages (hx : x ∈ sv39.pages m 3 p) (hge : kernelEnd ≤ x) :
    x ∈ owned kernelEnd m 3 p := by
  rwa [← Multiset.count_pos, count_owned hge, Multiset.count_pos]

theorem owned_le_pages : owned kernelEnd m 3 p ≤ sv39.pages m 3 p := by
  refine nodes_mono (fun q => ?_) m 3 p
  rw [ownedFrame]
  split_ifs
  · exact le_rfl
  · exact Multiset.zero_le _

/-- A tree without pages of the kernel image owns all its pages. -/
theorem owned_eq_pages (hall : ∀ x ∈ sv39.pages m 3 p, kernelEnd ≤ x) :
    owned kernelEnd m 3 p = sv39.pages m 3 p := by
  ext x
  by_cases hx : kernelEnd ≤ x
  · exact count_owned hx
  · have hnot : x ∉ sv39.pages m 3 p := fun hmem => hx (hall x hmem)
    rw [Multiset.count_eq_zero_of_notMem hnot, Multiset.count_eq_zero_of_notMem fun hmem =>
      hnot (Multiset.mem_of_le owned_le_pages hmem)]

/-- The frame of an address is a page of the tree, besides the table pages. -/
theorem tables_add_frame_le {va e : Word} (he : leafEntry m p va = some e)
    (hge : kernelEnd ≤ (pteToPa e).toNat) :
    sv39.tables m 3 p + {(pteToPa e).toNat} ≤ owned kernelEnd m 3 p := by
  have hle : sv39.tables m 3 p + ownedFrame kernelEnd (pteToPa e).toNat ≤ owned kernelEnd m 3 p :=
    tables_add_leaf_le (getVpn_lt va) (child_of_leafEntry he).2
  rwa [ownedFrame, if_pos hge] at hle

theorem frame_mem_owned {va e : Word} (he : leafEntry m p va = some e)
    (hge : kernelEnd ≤ (pteToPa e).toNat) : (pteToPa e).toNat ∈ owned kernelEnd m 3 p :=
  Multiset.mem_of_le ((Multiset.le_add_left _ _).trans (tables_add_frame_le he hge))
    (Multiset.mem_singleton_self _)

theorem leafEntry_eqOff {va : Word} (hm : EqOff S m m') (hp : PageAligned p)
    (hS : ∀ x ∈ owned kernelEnd m 3 p, x ∉ S) : leafEntry m' p va = leafEntry m p va :=
  leafAt_eqOff (getVpn_lt va) hm hp fun x hx =>
    hS x (Multiset.mem_of_le (tables_le_nodes _ _ _ _) hx)

/-- What a table owns are its tables and frames outside the kernel image. -/
theorem mem_owned {h : ℕ} (hx : x ∈ owned kernelEnd m h p) :
    x ∈ sv39.tables m h p ∨ kernelEnd ≤ x := by
  refine (mem_tables_or_leaf hx).imp_right ?_
  rintro ⟨q, hq⟩
  rw [ownedFrame] at hq
  split_ifs at hq with hge
  · rwa [Multiset.mem_singleton.mp hq]
  · exact absurd hq (Multiset.notMem_zero x)

/-! ### What two tables share -/

/-- A page table whose tables are all its own shares no entry with the kernel's. -/
theorem sharesNothing_of_apart (h : ∀ x ∈ sv39.tables m 3 p, x ∉ sv39.tables m 3 root) :
    SharesNothing m p root := by
  intro i hi heq
  cases hc : sv39.child (loadWord m (p + 8 * i)) with
  | none => rfl
  | some q =>
    have hq : q ∈ sv39.tables m 3 p := tables_child_subset hi hc self_mem_tables
    rw [heq] at hc
    exact absurd (tables_child_subset hi hc self_mem_tables) (h q hq)

/-- Two page tables map the same addresses, with the same flags and the same bytes. -/
def SameSpace (m m' : Mem) (p p' : ℕ) : Prop :=
  ∀ va, (leafEntry m p va = none ∧ leafEntry m' p' va = none) ∨
    ∃ e e', leafEntry m p va = some e ∧ leafEntry m' p' va = some e' ∧ pteFlags e' = pteFlags e ∧
      ∀ b < 4096, m' ((pteToPa e').toNat + b) = m ((pteToPa e).toNat + b)

theorem sameSpace_of_sameTree (h : sv39.SameTree pteFlags m m' 3 p q) : SameSpace m m' p q := by
  intro va
  rcases h.leafAt (getVpn_lt va) with hnone | ⟨e, e', r, r', he, he', hr, hr', hflags, hbytes⟩
  · exact Or.inl hnone
  · refine Or.inr ⟨e, e', he, he', hflags, ?_⟩
    obtain rfl := Option.some.inj (hr.symm.trans (child_of_leafEntry he).1)
    obtain rfl := Option.some.inj (hr'.symm.trans (child_of_leafEntry he').1)
    exact hbytes

theorem SameSpace.symm (h : SameSpace m m' p q) : SameSpace m' m q p := by
  intro va
  rcases h va with ⟨hnone, hnone'⟩ | ⟨e, e', he, he', hflags, heq⟩
  · exact Or.inl ⟨hnone', hnone⟩
  · exact Or.inr ⟨e', e, he', he, hflags.symm, fun b hb => (heq b hb).symm⟩

theorem SameSpace.congr_right {m'' : Mem} (h : SameSpace m m' p q)
    (hentry : ∀ va, leafEntry m'' q va = leafEntry m' q va)
    (hbytes : ∀ va e, leafEntry m' q va = some e →
      ∀ b < 4096, m'' ((pteToPa e).toNat + b) = m' ((pteToPa e).toNat + b)) :
    SameSpace m m'' p q := by
  intro va
  rw [hentry]
  rcases h va with hnone | ⟨e, e', he, he', hflags, heq⟩
  · exact Or.inl hnone
  · refine Or.inr ⟨e, e', he, he', hflags, fun b hb => ?_⟩
    rw [hbytes va e' he' b hb, heq b hb]

theorem SameSpace.leafEntry_ne_none (h : SameSpace m m' p q) {va : Word}
    (hne : leafEntry m p va ≠ none) : leafEntry m' q va ≠ none := by
  rcases h va with ⟨hnone, -⟩ | ⟨e, e', -, he', -⟩
  · exact absurd hnone hne
  · simp [he']

end RiscvKernel
