import RiscvKernel.Memory.Address
import RiscvKernel.Memory.FreeTable
import RiscvKernel.Memory.MapPage

/-!
# Building an address space

A page table that is filled by a sequence of `map_page` calls, starting from a cleared page.

* `Built`: the table leads to exactly the mappings made so far, a later one replacing an earlier
  one of the same leaf entry, and owns no page besides those taken for it; if no mapping was
  replaced, it owns all of them.
* `Extended`: a piece of the construction, composed along the loops by `Extended.trans` and
  `extended_forPages`. It writes to tables and new pages only, so that what the frames mapped
  before hold stays (`Extended.frame_eq`).
-/

namespace RiscvKernel

open ByteMemory RadixTable EntryFormat

/-- One call of `map_page`. -/
structure Mapping where
  va : Word
  frame : ℕ
  flags : Word

namespace Mapping

/-- The leaf entry the call writes. -/
def entry (x : Mapping) : Word :=
  paToPte (BitVec.ofNat 64 x.frame) (x.flags ||| pteA ||| pteD)

/-- The indexes lead to the leaf entry of the mapping. -/
def At (idx : ℕ → ℕ) (x : Mapping) : Prop := ∀ k ≤ 2, idx k = getVpn x.va k

instance (idx : ℕ → ℕ) (x : Mapping) : Decidable (x.At idx) :=
  inferInstanceAs (Decidable (∀ k ≤ 2, idx k = getVpn x.va k))

/-- The mapping names a page and is valid. -/
structure Ok (x : Mapping) : Prop where
  isPage : IsPage x.frame
  flags_lt : x.flags.toNat < 2 ^ 10
  valid : x.flags &&& pteV ≠ 0

end Mapping

/-- The leaf entry that a sequence of mappings, latest first, leaves at the given indexes. -/
def leafOf (maps : List Mapping) (idx : ℕ → ℕ) : Option Word :=
  (maps.find? fun x => x.At idx).map Mapping.entry

variable {kernelEnd pgd p : ℕ} {m m' : Mem} {maps added added' : List Mapping}
  {used S : Multiset ℕ} {x : Mapping} {idx : ℕ → ℕ} {s s' s'' : Phys}
  {free free' free'' taken taken' : List ℕ}

theorem leafOf_cons (x : Mapping) (maps : List Mapping) (idx : ℕ → ℕ) :
    leafOf (x :: maps) idx = if x.At idx then some x.entry else leafOf maps idx := by
  rw [leafOf, List.find?_cons]
  by_cases h : x.At idx <;> simp [h, leafOf]

theorem exists_of_leafOf {e : Word} (h : leafOf maps idx = some e) :
    ∃ x ∈ maps, x.At idx ∧ e = x.entry := by
  rw [leafOf, Option.map_eq_some_iff] at h
  obtain ⟨x, hx, rfl⟩ := h
  exact ⟨x, List.mem_of_find?_eq_some hx, by simpa using List.find?_some hx, rfl⟩

theorem leafOf_ne_none (hx : x ∈ maps) (hat : x.At idx) : leafOf maps idx ≠ none := by
  rw [leafOf, Ne, Option.map_eq_none_iff, List.find?_eq_none]
  intro hall
  exact hall x hx (decide_eq_true hat)

/-- Two mappings use different leaf entries. -/
def SlotsDiffer (x y : Mapping) : Prop := leafSlot x.va ≠ leafSlot y.va

instance : Std.Symm SlotsDiffer := ⟨fun _ _ h => Ne.symm h⟩

theorem Mapping.at_getVpn {va : Word} : x.At (getVpn va) ↔ leafSlot x.va = leafSlot va := by
  simp only [Mapping.At, leafSlot, Prod.mk.injEq]
  constructor
  · intro h
    exact ⟨(h 2 le_rfl).symm, (h 1 (by omega)).symm, (h 0 (by omega)).symm⟩
  · rintro ⟨h2, h1, h0⟩ k hk
    obtain rfl | rfl | rfl : k = 0 ∨ k = 1 ∨ k = 2 := by omega
    · exact h0.symm
    · exact h1.symm
    · exact h2.symm

/-- The frames of the mappings, outside the kernel image. -/
def framesOf (kernelEnd : ℕ) (maps : List Mapping) : Multiset ℕ :=
  (maps.map fun x => ownedFrame kernelEnd x.frame).sum

theorem framesOf_cons (x : Mapping) (maps : List Mapping) :
    framesOf kernelEnd (x :: maps) = ownedFrame kernelEnd x.frame + framesOf kernelEnd maps := by
  rw [framesOf, List.map_cons, List.sum_cons]
  rfl

theorem mem_framesOf (hx : x ∈ maps) (hge : kernelEnd ≤ x.frame) :
    x.frame ∈ framesOf kernelEnd maps := by
  induction maps with
  | nil => cases hx
  | cons y maps ih =>
    rw [framesOf_cons, Multiset.mem_add]
    rcases List.mem_cons.mp hx with rfl | hmem
    · left
      rw [ownedFrame, if_pos hge]
      exact Multiset.mem_singleton_self _
    · exact Or.inr (ih hmem)

/-- A page table filled by `maps` (latest first) from a cleared page, out of the pages `used`. -/
structure Built (kernelEnd : ℕ) (m : Mem) (pgd : ℕ) (maps : List Mapping)
    (used : Multiset ℕ) : Prop where
  aligned : PageAligned pgd
  ok : ∀ x ∈ maps, x.Ok
  leafAt : ∀ idx, (∀ k, idx k < sv39.entries) → sv39.leafAt m idx 2 pgd = leafOf maps idx
  owned_le : owned kernelEnd m 3 pgd ≤ used
  owned_eq : maps.Pairwise SlotsDiffer → owned kernelEnd m 3 pgd = used
  /-- Every page was taken for a table or for a frame. -/
  tables_add : sv39.tables m 3 pgd + framesOf kernelEnd maps = used
  card_pages : (sv39.pages m 3 pgd).card ≤ used.card + maps.length

namespace Built

theorem tables_le (hb : Built kernelEnd m pgd maps used) : sv39.tables m 3 pgd ≤ used :=
  (tables_le_nodes _ _ _ _).trans hb.owned_le

/-- A cleared page is a table without mappings. -/
theorem of_cleared (hp : PageAligned pgd) (hz : ∀ b < 4096, m (pgd + b) = 0) :
    Built kernelEnd m pgd [] {pgd} where
  aligned := hp
  ok := by simp
  leafAt idx hidx := leafAt_of_cleared hidx hz
  owned_le := (nodes_of_cleared hz).le
  owned_eq _ := nodes_of_cleared hz
  tables_add := by
    rw [tables, nodes_of_cleared hz]
    rfl
  card_pages := by
    rw [pages, nodes_of_cleared hz]
    simp

/-- A change off the pages used keeps the table. -/
theorem eqOff (hb : Built kernelEnd m pgd maps used) (hm : EqOff S m m')
    (hS : ∀ x ∈ used, x ∉ S) : Built kernelEnd m' pgd maps used := by
  have htables : ∀ x ∈ sv39.tables m 3 pgd, x ∉ S :=
    fun x hx => hS x (Multiset.mem_of_le hb.tables_le hx)
  have howned : owned kernelEnd m' 3 pgd = owned kernelEnd m 3 pgd :=
    nodes_eqOff hm hb.aligned htables
  refine ⟨hb.aligned, hb.ok, fun idx hidx => ?_, howned ▸ hb.owned_le, fun h => ?_, ?_, ?_⟩
  · rw [leafAt_eqOff hidx hm hb.aligned htables, hb.leafAt idx hidx]
  · rw [howned, hb.owned_eq h]
  · rw [tables_eqOff hm hb.aligned htables, hb.tables_add]
  · rw [pages, nodes_eqOff hm hb.aligned htables]
    exact hb.card_pages

/-- The table may be charged for more pages than it owns only if a mapping was replaced. -/
theorem frameAt (hb : Built kernelEnd m pgd maps used)
    (hd : (x :: maps).Pairwise SlotsDiffer) :
    sv39.frameAt m (getVpn x.va) 2 pgd = none := by
  rw [EntryFormat.frameAt, hb.leafAt _ (getVpn_lt x.va)]
  cases hleaf : leafOf maps (getVpn x.va) with
  | none => rfl
  | some e =>
    obtain ⟨y, hy, hat, -⟩ := exists_of_leafOf hleaf
    rw [List.pairwise_cons] at hd
    exact absurd (Mapping.at_getVpn.mp hat).symm (hd.1 y hy)

/-- One more mapping. -/
theorem pageMapped {new : List ℕ} (hb : Built kernelEnd s.mem pgd maps used) (hx : x.Ok)
    (h : PageMapped s s' pgd x.va x.frame x.flags new) :
    Built kernelEnd s'.mem pgd (x :: maps) (used + ↑new + ownedFrame kernelEnd x.frame) := by
  have hnodes := h.nodes (ownedFrame kernelEnd)
  refine ⟨hb.aligned, fun y hy => ?_, fun idx hidx => ?_, ?_, fun hd => ?_, ?_, ?_⟩
  · rcases List.mem_cons.mp hy with rfl | hmem
    · exact hx
    · exact hb.ok y hmem
  · rw [h.leafAt idx hidx, leafOf_cons, hb.leafAt idx hidx]
    rfl
  · -- what is owned may have been fewer pages, if the leaf was mapped before
    calc owned kernelEnd s'.mem 3 pgd
        ≤ owned kernelEnd s'.mem 3 pgd
            + (sv39.frameAt s.mem (getVpn x.va) 2 pgd).elim 0 (ownedFrame kernelEnd) :=
          Multiset.le_add_right _ _
      _ = owned kernelEnd s.mem 3 pgd + ↑new + ownedFrame kernelEnd x.frame := hnodes
      _ ≤ used + ↑new + ownedFrame kernelEnd x.frame := by
          gcongr
          exact hb.owned_le
  · -- nothing was mapped at this leaf entry before
    rw [hb.frameAt hd, Option.elim_none, add_zero] at hnodes
    rw [owned, hnodes, ← hb.owned_eq (List.pairwise_cons.mp hd).2]
    rfl
  · rw [h.tables_eq, framesOf_cons, ← hb.tables_add]
    abel
  · have hcard := congrArg Multiset.card (h.nodes fun q => {q})
    have hpages := hb.card_pages
    rw [pages] at hpages ⊢
    simp only [Multiset.card_add, Multiset.coe_card, Multiset.card_singleton,
      List.length_cons] at hcard ⊢
    omega

end Built

/-- What a leaf entry of a table built by `map_page` calls comes from. -/
theorem exists_of_leafEntry {va e : Word} (hb : Built kernelEnd m p maps used)
    (he : leafEntry m p va = some e) :
    ∃ x ∈ maps, leafSlot x.va = leafSlot va ∧ e = x.entry := by
  rw [leafEntry, hb.leafAt _ (getVpn_lt va)] at he
  obtain ⟨x, hx, hat, rfl⟩ := exists_of_leafOf he
  exact ⟨x, hx, Mapping.at_getVpn.mp hat, rfl⟩

theorem leafEntry_ne_none_of_built (hb : Built kernelEnd m p maps used) (hx : x ∈ maps) :
    leafEntry m p x.va ≠ none := by
  rw [leafEntry, hb.leafAt _ (getVpn_lt x.va)]
  exact leafOf_ne_none hx (Mapping.at_getVpn.mpr rfl)

/-- The leaf entry of an address in a page that was mapped once. -/
theorem leafEntry_of_mem {va : Word} (hb : Built kernelEnd m p maps used)
    (hd : maps.Pairwise SlotsDiffer) (hx : x ∈ maps) (hva : x.va = pageVa va) :
    leafEntry m p va = some x.entry := by
  have hslot : leafSlot x.va = leafSlot va := by rw [hva, leafSlot_pageVa]
  have hne : leafEntry m p va ≠ none := by
    rw [leafEntry, hb.leafAt _ (getVpn_lt va)]
    exact leafOf_ne_none hx (Mapping.at_getVpn.mpr hslot)
  obtain ⟨e, he⟩ := Option.ne_none_iff_exists'.mp hne
  obtain ⟨y, hy, hyslot, rfl⟩ := exists_of_leafEntry hb he
  rw [he]
  by_contra hdiffer
  have hxy : x ≠ y := fun heq => hdiffer (by rw [heq])
  exact hd.forall hx hy hxy (hslot.trans hyslot.symm)

/-- A page table under construction and the pages still free. -/
structure Building (kernelEnd : ℕ) (s : Phys) (pgd : ℕ) (maps : List Mapping)
    (used : Multiset ℕ) (free : List ℕ) : Prop where
  built : Built kernelEnd s.mem pgd maps used
  isFree : FreePages s free
  nodup : ((free : Multiset ℕ) + used).Nodup

/-- From `s` to `s'` the mappings `added` (latest first) were made, with the pages `taken` from
the front of the free list. -/
structure Extended (kernelEnd : ℕ) (s s' : Phys) (pgd : ℕ) (maps added : List Mapping)
    (used : Multiset ℕ) (free taken free' : List ℕ) : Prop where
  free_eq : free = taken ++ free'
  building : Building kernelEnd s' pgd (added ++ maps) (used + ↑taken) free'
  tables_le : sv39.tables s'.mem 3 pgd ≤ sv39.tables s.mem 3 pgd + ↑taken
  eqOff : EqOff (sv39.tables s.mem 3 pgd + ↑taken) s.mem s'.mem

/-- A property of a mapping that depends on memory only through the frame, if it is not in the
kernel image. -/
def FrameLocal (kernelEnd : ℕ) (Q : Mem → Mapping → Prop) : Prop :=
  ∀ m m' x, (kernelEnd ≤ x.frame → ∀ b < 4096, m' (x.frame + b) = m (x.frame + b)) →
    Q m x → Q m' x

namespace Extended

theorem refl (h : Building kernelEnd s pgd maps used free) :
    Extended kernelEnd s s pgd maps [] used free [] free := by
  refine ⟨rfl, ?_, Multiset.le_add_right _ _, EqOff.refl _ _⟩
  rwa [List.nil_append, Multiset.coe_nil, add_zero]

/-- The pages still free were free before. -/
theorem mem_free (h : Extended kernelEnd s s' pgd maps added used free taken free') :
    ∀ q ∈ free', q ∈ free := by
  intro q hq
  rw [h.free_eq]
  exact List.mem_append_right _ hq

theorem trans (h : Extended kernelEnd s s' pgd maps added used free taken free')
    (h' : Extended kernelEnd s' s'' pgd (added ++ maps) added' (used + ↑taken)
      free' taken' free'') :
    Extended kernelEnd s s'' pgd maps (added' ++ added) used free (taken ++ taken') free'' := by
  have htables : sv39.tables s'.mem 3 pgd + ↑taken'
      ≤ sv39.tables s.mem 3 pgd + ((taken ++ taken' : List ℕ) : Multiset ℕ) := by
    rw [← Multiset.coe_add, ← add_assoc]
    gcongr
    exact h.tables_le
  refine ⟨?_, ?_, h'.tables_le.trans htables, ?_⟩
  · rw [h.free_eq, h'.free_eq, List.append_assoc]
  · rw [List.append_assoc, ← Multiset.coe_add, ← add_assoc]
    exact h'.building
  · refine (h.eqOff.mono fun x hx => ?_).trans_self
      (h'.eqOff.mono fun x hx => Multiset.mem_of_le htables hx)
    rw [← Multiset.coe_add, ← add_assoc, Multiset.mem_add]
    exact Or.inl hx

/-- Only pages used or taken are written. -/
theorem eqOff_used (h : Extended kernelEnd s s' pgd maps added used free taken free')
    (hb : Building kernelEnd s pgd maps used free) : EqOff (used + ↑taken) s.mem s'.mem := by
  apply h.eqOff.mono
  intro x hx
  rw [Multiset.mem_add] at hx ⊢
  exact hx.imp_left (Multiset.mem_of_le hb.built.tables_le)

/-- The frames mapped before are not written. -/
theorem frame_eq (h : Extended kernelEnd s s' pgd maps added used free taken free')
    (hb : Building kernelEnd s pgd maps used free) (hx : x ∈ maps) (hge : kernelEnd ≤ x.frame) :
    ∀ b < 4096, s'.mem (x.frame + b) = s.mem (x.frame + b) := by
  intro b hlt
  apply h.eqOff.byte_eq (hb.built.ok x hx).isPage.aligned hlt
  -- a frame is no table, and neither free nor taken
  have hframe := mem_framesOf hx hge
  have hnd := hb.nodup
  rw [← hb.built.tables_add, Multiset.nodup_add, Multiset.nodup_add] at hnd
  rw [Multiset.mem_add, not_or]
  refine ⟨fun htable => Multiset.disjoint_left.mp hnd.2.1.2.2 htable hframe, fun htaken => ?_⟩
  refine Multiset.disjoint_left.mp hnd.2.2 ?_ (Multiset.mem_add.mpr (Or.inr hframe))
  rw [h.free_eq]
  exact List.mem_append_left _ htaken

/-- What was so of a mapping made before stays so. -/
theorem keep {Q : Mem → Mapping → Prop}
    (h : Extended kernelEnd s s' pgd maps added used free taken free')
    (hb : Building kernelEnd s pgd maps used free) (hQ : FrameLocal kernelEnd Q) (hx : x ∈ maps)
    (hq : Q s.mem x) : Q s'.mem x :=
  hQ _ _ x (h.frame_eq hb hx) hq

end Extended

/-- Mapping a page of the kernel image. -/
theorem Building.mapPage (h : Building kernelEnd s pgd maps used free) (hx : x.Ok)
    (hframe : x.frame < kernelEnd) :
    Outcome (free.length < 2)
      (fun s' => ∃ taken free', taken.length ≤ 2 ∧
        Extended kernelEnd s s' pgd maps [x] used free taken free')
      (mapPage pgd x.va (BitVec.ofNat 64 x.frame) x.flags s) := by
  have hnd : ((free : Multiset ℕ) + sv39.tables s.mem 3 pgd).Nodup :=
    Multiset.nodup_of_le (by gcongr; exact h.built.tables_le) h.nodup
  refine (mapPage_spec h.isFree h.built.aligned hnd hx.isPage.aligned hx.isPage.lt
    hx.flags_lt hx.valid).mono (fun hstuck => hstuck.1) ?_
  rintro s' ⟨new, free', rfl, hf', hlen, -, hmapped⟩
  have hbuilt := h.built.pageMapped hx hmapped
  rw [ownedFrame, if_neg (by omega), add_zero] at hbuilt
  refine ⟨new, free', hlen, rfl, ⟨hbuilt, hf', ?_⟩, hmapped.tables_eq.le, hmapped.eqOff⟩
  have hnodup := h.nodup
  rwa [← Multiset.coe_add, add_comm (new : Multiset ℕ), add_assoc, add_comm (new : Multiset ℕ)]
    at hnodup

/-- Mapping a page that is neither free nor used yet. -/
theorem Building.mapOwned (h : Building kernelEnd s pgd maps used free) (hx : x.Ok)
    (hframe : kernelEnd ≤ x.frame) (hnotFree : x.frame ∉ free) (hnotUsed : x.frame ∉ used) :
    Outcome (free.length < 2)
      (fun s' => ∃ new free' : List ℕ, free = new ++ free' ∧ new.length ≤ 2 ∧
        Building kernelEnd s' pgd (x :: maps) (used + ↑new + {x.frame}) free' ∧
        sv39.tables s'.mem 3 pgd = sv39.tables s.mem 3 pgd + ↑new ∧
        EqOff (sv39.tables s.mem 3 pgd + ↑new) s.mem s'.mem)
      (RiscvKernel.mapPage pgd x.va (BitVec.ofNat 64 x.frame) x.flags s) := by
  have hnd : ((free : Multiset ℕ) + sv39.tables s.mem 3 pgd).Nodup :=
    Multiset.nodup_of_le (by gcongr; exact h.built.tables_le) h.nodup
  refine (mapPage_spec h.isFree h.built.aligned hnd hx.isPage.aligned hx.isPage.lt
    hx.flags_lt hx.valid).mono (fun hstuck => hstuck.1) ?_
  rintro s' ⟨new, free', rfl, hf', hlen, -, hmapped⟩
  have hbuilt := h.built.pageMapped hx hmapped
  rw [ownedFrame, if_pos hframe] at hbuilt
  refine ⟨new, free', rfl, hlen, ⟨hbuilt, hf', ?_⟩, hmapped.tables_eq, hmapped.eqOff⟩
  have hall : ({x.frame} + (((new ++ free' : List ℕ) : Multiset ℕ) + used)).Nodup := by
    rw [Multiset.singleton_add, Multiset.nodup_cons, Multiset.mem_add, not_or]
    exact ⟨⟨hnotFree, hnotUsed⟩, h.nodup⟩
  refine Multiset.nodup_of_le (le_of_eq ?_) hall
  rw [← Multiset.coe_add]
  abel

/-- Mapping a page that was just taken off the free list and possibly written to. The page itself
is left alone. -/
theorem Building.mapFrame {t : Phys} (h : Building kernelEnd s pgd maps used (x.frame :: free))
    (ht : FreePages t free) (hoff : EqOff {x.frame} s.mem t.mem) (hx : x.Ok)
    (hframe : kernelEnd ≤ x.frame) :
    Outcome (free.length < 2)
      (fun s' => ∃ taken free', taken.length ≤ 3 ∧
        (∀ b < 4096, s'.mem (x.frame + b) = t.mem (x.frame + b)) ∧
        Extended kernelEnd s s' pgd maps [x] used (x.frame :: free) taken free')
      (RiscvKernel.mapPage pgd x.va (BitVec.ofNat 64 x.frame) x.flags t) := by
  have hnodup := h.nodup
  rw [← Multiset.cons_coe, Multiset.cons_add, Multiset.nodup_cons, Multiset.mem_add,
    not_or] at hnodup
  obtain ⟨⟨hnotFree, hnotUsed⟩, hnd⟩ := hnodup
  have hapart : ∀ y ∈ used, y ∉ ({x.frame} : Multiset ℕ) := by
    intro y hy
    rw [Multiset.mem_singleton]
    rintro rfl
    exact hnotUsed hy
  -- what is done to the frame is off the pages in use
  have hbuilt : Built kernelEnd t.mem pgd maps used := h.built.eqOff hoff hapart
  have htables : sv39.tables t.mem 3 pgd = sv39.tables s.mem 3 pgd :=
    tables_eqOff hoff h.built.aligned fun y hy => hapart y (Multiset.mem_of_le h.built.tables_le hy)
  refine (Building.mapOwned ⟨hbuilt, ht, hnd⟩ hx hframe hnotFree hnotUsed).mono id ?_
  rintro s' ⟨new, free', hfree, hlen, hbuilding, hgrown, hoff'⟩
  rw [htables] at hgrown hoff'
  have htaken : used + ((x.frame :: new : List ℕ) : Multiset ℕ) = used + ↑new + {x.frame} := by
    rw [← Multiset.cons_coe, ← Multiset.singleton_add]
    abel
  -- `map_page` writes to tables only, so the contents of the frame stay
  have hnew : x.frame ∉ sv39.tables s.mem 3 pgd + ↑new := by
    rw [Multiset.mem_add, not_or]
    refine ⟨fun hmem => hnotUsed (Multiset.mem_of_le h.built.tables_le hmem),
      fun hmem => hnotFree ?_⟩
    rw [hfree]
    exact List.mem_append_left _ hmem
  refine ⟨x.frame :: new, free', Nat.succ_le_succ hlen,
    fun b hb => hoff'.byte_eq hx.isPage.aligned hb hnew,
    by rw [hfree, List.cons_append], ?_, ?_, ?_⟩
  · rw [htaken]
    exact hbuilding
  · rw [hgrown, ← Multiset.cons_coe, ← Multiset.singleton_add]
    gcongr
    exact Multiset.le_add_left _ _
  · apply (hoff.trans hoff').mono
    intro y hy
    rw [← Multiset.cons_coe]
    simp only [Multiset.mem_add, Multiset.mem_singleton, Multiset.mem_cons] at hy ⊢
    rcases hy with hy | hy | hy
    · exact Or.inr (Or.inl hy)
    · exact Or.inl hy
    · exact Or.inr (Or.inr hy)

/-- A loop over pages each turn of which makes one mapping, at the address of the page, with at
most three pages. -/
theorem extended_forPages {body : Phys → ℕ → Option Phys} {lo hi : ℕ} {Q : Mem → Mapping → Prop}
    (hQ : FrameLocal kernelEnd Q) (h : Building kernelEnd s pgd maps used free)
    (hbody : ∀ i, lo + 4096 * i < hi → ∀ t maps used rest, (∀ q ∈ rest, q ∈ free) →
      Building kernelEnd t pgd maps used rest →
      Outcome (rest.length < 3)
        (fun t' => ∃ x taken rest', x.va = BitVec.ofNat 64 (lo + 4096 * i) ∧ Q t'.mem x ∧
          taken.length ≤ 3 ∧ Extended kernelEnd t t' pgd maps [x] used rest taken rest')
        (body t (lo + 4096 * i))) :
    Outcome (free.length < 3 * ((hi - lo + 4095) / 4096))
      (fun s' => ∃ added taken free',
        added.map Mapping.va = ((List.range ((hi - lo + 4095) / 4096)).map fun k =>
          BitVec.ofNat 64 (lo + 4096 * k)).reverse ∧ (∀ x ∈ added, Q s'.mem x) ∧
        taken.length ≤ 3 * ((hi - lo + 4095) / 4096) ∧
        Extended kernelEnd s s' pgd maps added used free taken free')
      (forPages body lo hi s) := by
  -- after `i` turns: a mapping for each of the first `i` pages, the last one first
  refine outcome_forPages
    (fun i t => ∃ added taken free',
      added.map Mapping.va
        = ((List.range i).map fun k => BitVec.ofNat 64 (lo + 4096 * k)).reverse ∧
      (∀ x ∈ added, Q t.mem x) ∧ taken.length ≤ 3 * i ∧
      Extended kernelEnd s t pgd maps added used free taken free')
    ⟨[], [], free, rfl, by simp, le_rfl, Extended.refl h⟩ ?_
  rintro i hi' t ⟨added, taken, free', hvas, hall, hlen, hext⟩
  have hlength : free.length = taken.length + free'.length := by
    rw [hext.free_eq, List.length_append]
  refine (hbody i hi' t _ _ _ hext.mem_free hext.building).mono (fun hstuck => by omega) ?_
  rintro t' ⟨x, taken', free'', hva, hx, hlen', hext'⟩
  refine ⟨x :: added, taken ++ taken', free'', ?_, ?_, ?_, hext.trans hext'⟩
  · rw [List.map_cons, hvas, hva, List.range_succ, List.map_append, List.reverse_append]
    rfl
  · -- later turns leave the pages of an earlier mapping alone
    intro y hy
    rcases List.mem_cons.mp hy with rfl | hmem
    · exact hx
    · exact hext'.keep hext.building hQ (List.mem_append_left _ hmem) (hall y hmem)
  · rw [List.length_append]
    omega

end RiscvKernel
