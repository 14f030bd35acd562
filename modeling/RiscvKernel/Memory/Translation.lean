import RiscvKernel.Memory.Address
import RiscvKernel.Memory.CopyTable
import RiscvKernel.Memory.MapPage

/-!
# One translation

`map_page` as its callers see it, on any page table that is a tree of pages that are not free
(`TableTree`).

* `walkPte_eq`: the walk that does not create reads two entries and changes nothing.
* `walkPte_create`: the walk that creates ends at the entry that the other walk then finds.
* `map_page_one_translation`: after `map_page` the addresses of one page have the new translation
  and all others the one they had.
-/

namespace RiscvKernel

open ByteMemory RadixTable EntryFormat

/-- A page table whose tables are all different and not on the free list. -/
structure TableTree (s : Phys) (pgd : ℕ) (free : List ℕ) : Prop where
  aligned : PageAligned pgd
  isFree : FreePages s free
  nodup : ((free : Multiset ℕ) + sv39.tables s.mem 3 pgd).Nodup

/-- The addresses have the same bits 38 to 12. -/
def SamePage (va va' : Word) : Prop := leafSlot va = leafSlot va'

variable {va pa flags : Word} {s s' : Phys} {free : List ℕ} {pgd : ℕ}

/-! ### The two walks -/

/-- The entry of the top table for `va`. -/
def topEntry (m : Mem) (pgd : ℕ) (va : Word) : Word := loadWord m (pgd + 8 * getVpn va 2)

/-- The entry of the middle table for `va`. -/
def middleEntry (m : Mem) (pgd : ℕ) (va : Word) : Word :=
  loadWord m ((pteToPa (topEntry m pgd va)).toNat + 8 * getVpn va 1)

/-- Both upper entries for `va` are valid. -/
def UpperValid (m : Mem) (pgd : ℕ) (va : Word) : Prop :=
  topEntry m pgd va &&& pteV ≠ 0 ∧ middleEntry m pgd va &&& pteV ≠ 0

/-- The address of the leaf entry of `va`, when both upper entries are valid. -/
def leafAddr (m : Mem) (pgd : ℕ) (va : Word) : ℕ :=
  (pteToPa (middleEntry m pgd va)).toNat + 8 * getVpn va 0

theorem slot_of_upperValid {m : Mem} (h : UpperValid m pgd va) :
    sv39.slot m (getVpn va) 2 pgd = some (leafAddr m pgd va) := by
  have htop := sv39_child_of_valid h.1
  have hmiddle := sv39_child_of_valid h.2
  rw [topEntry] at htop
  rw [middleEntry, topEntry] at hmiddle
  rw [slot_succ, htop, Option.elim_some, slot_succ, hmiddle, Option.elim_some, slot_zero]
  rfl

theorem slot_of_not_upperValid {m : Mem} (h : ¬ UpperValid m pgd va) :
    sv39.slot m (getVpn va) 2 pgd = none := by
  rw [slot_succ]
  by_cases htop : topEntry m pgd va &&& pteV ≠ 0
  · have hmiddle := sv39_child_of_not_valid fun hmiddle => h ⟨htop, hmiddle⟩
    have htop' := sv39_child_of_valid htop
    rw [topEntry] at htop'
    rw [middleEntry, topEntry] at hmiddle
    rw [htop', Option.elim_some, slot_succ, hmiddle, Option.elim_none]
  · have htop' := sv39_child_of_not_valid htop
    rw [topEntry] at htop'
    rw [htop', Option.elim_none]

instance (m : Mem) (pgd : ℕ) (va : Word) : Decidable (UpperValid m pgd va) :=
  inferInstanceAs (Decidable (_ ∧ _))

/-- `walk_pte` with `create = 0` changes nothing, and finds the leaf entry exactly when both upper
entries are valid. -/
theorem walkPte_eq (pgd : ℕ) (va : Word) (s : Phys) :
    walkPte pgd va false s
      = some (if UpperValid s.mem pgd va then leafAddr s.mem pgd va else 0, s) := by
  rw [walkPte, walkLevels_eq]
  split_ifs with h
  · rw [slot_of_upperValid h, Option.getD_some]
  · rw [slot_of_not_upperValid h, Option.getD_none]

/-- With both upper entries valid, the walk that creates does the same. -/
theorem walkPte_create_eq (h : UpperValid s.mem pgd va) :
    walkPte pgd va true s = walkPte pgd va false s := by
  rw [walkPte_eq, if_pos h, walkPte, walkLevels]
  have htop := h.1
  have hmiddle := h.2
  rw [topEntry] at htop
  rw [middleEntry, topEntry] at hmiddle
  dsimp only
  rw [if_pos htop, walkLevels]
  dsimp only
  rw [if_pos hmiddle, walkLevels]
  rfl

/-- The walk that creates ends at the entry that the other walk finds from then on. -/
theorem walkPte_create (h : TableTree s pgd free) (hfree : 2 ≤ free.length) :
    ∃ a t, walkPte pgd va true s = some (a, t) ∧ walkPte pgd va false t = some (a, t) := by
  have hspec : Outcome _ _ (walkLevels va true 2 pgd s) :=
    walkLevels_spec h.isFree h.aligned h.nodup
  obtain ⟨⟨a, t⟩, hwalk, -, -, -, -, -, -, hslot, -⟩ := hspec.exists_of_not_stuck (by omega)
  refine ⟨a, t, hwalk, ?_⟩
  rw [walkPte, walkLevels_eq]
  dsimp only at hslot
  rw [hslot, Option.getD_some]

/-! ### Mapping a page -/

/-- The table is empty but for one entry. -/
def OneEntry (m : Mem) (q : ℕ) : Prop :=
  ∃ i < sv39.entries, ∀ j < sv39.entries, j ≠ i → loadWord m (q + 8 * j) = 0#64

theorem samePage_iff {va' : Word} : SamePage va va' ↔ ∀ k ≤ 2, getVpn va' k = getVpn va k := by
  rw [SamePage, leafSlot, leafSlot, Prod.mk.injEq, Prod.mk.injEq]
  constructor
  · rintro ⟨h2, h1, h0⟩ k hk
    obtain rfl | rfl | rfl : k = 0 ∨ k = 1 ∨ k = 2 := by omega
    · exact h0.symm
    · exact h1.symm
    · exact h2.symm
  · exact fun h => ⟨(h 2 le_rfl).symm, (h 1 (by decide)).symm, (h 0 (by decide)).symm⟩

/-- Flags below `2 ^ 10` are all the flags of an entry. -/
theorem pteFlags_eq {e : Word} (h : e.toNat < 2 ^ 10) : pteFlags e = e := by
  apply BitVec.eq_of_toNat_eq
  rw [pteFlags, BitVec.toNat_and, show (0x3FF#64 : Word).toNat = 2 ^ 10 - 1 from rfl,
    Nat.and_two_pow_sub_one_eq_mod, Nat.mod_eq_of_lt h]

/-- A new table has no entries but the one for `va`. -/
theorem mapPage_oneEntry (h : TableTree s pgd free) (hmap : mapPage pgd va pa flags s = some s')
    {new free' : List ℕ} (hnew : free = new ++ free') (hf' : FreePages s' free')
    (hfree : 2 ≤ free.length) : ∀ q ∈ new, OneEntry s'.mem q := by
  have hspec : Outcome _ _ (walkLevels va true 2 pgd s) :=
    walkLevels_spec h.isFree h.aligned h.nodup
  obtain ⟨⟨a, t⟩, hwalk, new', free'', hnew', hf'', -, hgrown, hslot, -, -, hway⟩ :=
    hspec.exists_of_not_stuck (by omega)
  dsimp only at hslot hf'' hgrown hway
  rw [mapPage, walkPte, hwalk, Option.bind_some, Option.some_inj] at hmap
  subst hmap
  have hstore := eqOff_storeLeaf (getVpn_lt va) h.aligned hslot
    (paToPte pa (flags ||| pteA ||| pteD))
  -- the store after the walk leaves the free list as it is
  obtain rfl := hf'.unique (hf''.eqOff hstore (grown_free_apart hgrown hnew' h.nodup))
  obtain rfl : new = new' := List.append_cancel_right (hnew.symm.trans hnew')
  obtain ⟨q, -, hqal, rfl⟩ := slot_mem (getVpn_lt va) h.aligned hslot
  have hvpn := (getVpn_lt va 0).trans_le sv39.fits
  intro x hx
  have hxal := (h.isFree.isPage x (by rw [hnew]; exact List.mem_append_left _ hx)).aligned
  obtain ⟨k, hk, hpage, hzero⟩ := hway x hx
  refine ⟨getVpn va k, getVpn_lt va k, fun j hj hne => ?_⟩
  by_cases hxq : x = q
  · -- the table of the leaf entry
    subst hxq
    have hlevel : k = 0 := by
      by_contra hk0
      exact hpage hk0 (pageOf_add hqal (by omega))
    subst hlevel
    rw [loadWord_storeWord_of_ne _ _ _ hne.symm, hzero j hj hne]
  · rw [(eqOff_storeWord _ hqal hvpn _).loadWord_eq hxal (hj.trans_le sv39.fits)
      (by simpa using hxq), hzero j hj hne]

/-- After `map_page` the addresses of the page of `va` lead to `pa` with the flags given, every
other address leads where it led before, and the table has gained at most two tables, which are
new and have no other entries. `walk_pte` without `create` changes nothing and finds the leaf
entry exactly when both upper entries are valid, the one that `walk_pte` with `create` finds. -/
theorem map_page_one_translation (va pa flags : Word) (h : TableTree s pgd free)
    (hpa : PageAligned pa.toNat) (hlt : pa.toNat < 2 ^ 56) (hflags : flags.toNat < 2 ^ 10)
    (hv : flags &&& pteV ≠ 0) (hfree : 2 ≤ free.length) :
    (∃ s' new free', mapPage pgd va pa flags s = some s' ∧
      (∀ va', SamePage va va' → ∃ e, leafEntry s'.mem pgd va' = some e ∧ pteToPa e = pa ∧
        pteFlags e = flags ||| pteA ||| pteD) ∧
      (∀ va', ¬ SamePage va va' → leafEntry s'.mem pgd va' = leafEntry s.mem pgd va') ∧
      TableTree s' pgd free' ∧ free = new ++ free' ∧ new.length ≤ 2 ∧
      sv39.tables s'.mem 3 pgd = sv39.tables s.mem 3 pgd + ↑new ∧
      (∀ q ∈ new, OneEntry s'.mem q)) ∧
    walkPte pgd va false s
      = some (if UpperValid s.mem pgd va then leafAddr s.mem pgd va else 0, s) ∧
    (UpperValid s.mem pgd va → walkPte pgd va true s = walkPte pgd va false s) ∧
    ∃ a t, walkPte pgd va true s = some (a, t) ∧ walkPte pgd va false t = some (a, t) := by
  refine ⟨?_, walkPte_eq pgd va s, walkPte_create_eq, walkPte_create h hfree⟩
  have hspec : Outcome _ _ (mapPage pgd va (BitVec.ofNat 64 pa.toNat) flags s) :=
    mapPage_spec h.isFree h.aligned h.nodup hpa hlt hflags hv
  rw [BitVec.ofNat_toNat, BitVec.setWidth_eq] at hspec
  obtain ⟨s', hmap, new, free', hnew, hf', hlen, -, hmapped⟩ :=
    hspec.exists_of_not_stuck (by omega)
  refine ⟨s', new, free', hmap, fun va' hsame => ?_, fun va' hother => ?_, ⟨h.aligned, hf', ?_⟩,
    hnew, hlen, ?_, mapPage_oneEntry h hmap hnew hf' hfree⟩
  · -- in the page the new entry is found, with the flags it was given
    have hleaf := hmapped.leafAt (getVpn va') (getVpn_lt va')
    rw [if_pos (samePage_iff.mp hsame), BitVec.ofNat_toNat, BitVec.setWidth_eq] at hleaf
    have hall : (flags ||| pteA ||| pteD).toNat < 2 ^ 10 :=
      or_toNat_lt (or_toNat_lt hflags (by decide)) (by decide)
    refine ⟨_, hleaf, ?_, ?_⟩
    · have hpage := pteToPa_paToPte hpa hlt hall
      rw [BitVec.ofNat_toNat, BitVec.setWidth_eq] at hpage
      exact BitVec.eq_of_toNat_eq hpage
    · rw [pteFlags, paToPte_and_flags, ← pteFlags, pteFlags_eq hall]
  · have hleaf := hmapped.leafAt (getVpn va') (getVpn_lt va')
    rwa [if_neg (fun hall => hother (samePage_iff.mpr hall))] at hleaf
  · -- the tables and the free list are still the same pages, each once
    have hnd := h.nodup
    rw [hnew, ← Multiset.coe_add, add_comm (new : Multiset ℕ), add_assoc,
      add_comm (new : Multiset ℕ), ← hmapped.tables_eq] at hnd
    exact hnd
  · exact hmapped.tables_eq

/-! ### A small memory -/

/-- Cleared memory with two pages on the free list. -/
def twoFreePages : Phys :=
  freePage (freePage { mem := fun _ => 0, freeList := 0 } 0x80002000) 0x80001000

theorem twoFreePages_spec : FreePages twoFreePages [0x80001000, 0x80002000] ∧
    EqOff {0x80001000, 0x80002000} (fun _ => 0) twoFreePages.mem := by
  have hnil : FreePages { mem := fun _ => 0, freeList := 0 } [] := ⟨rfl, by simp, List.nodup_nil⟩
  obtain ⟨hone, hoff⟩ := freePage_spec (p := 0x80002000) hnil ⟨rfl, by decide, by decide⟩ (by simp)
  obtain ⟨htwo, hoff'⟩ := freePage_spec (p := 0x80001000) hone ⟨rfl, by decide, by decide⟩ (by simp)
  refine ⟨htwo, (hoff.trans hoff').mono fun x hx => ?_⟩
  simp only [Multiset.mem_add, Multiset.mem_singleton, Multiset.insert_eq_cons,
    Multiset.mem_cons] at hx ⊢
  exact hx.symm

/-- A page that is not on the list is an empty table. -/
theorem twoFreePages_cleared {p : ℕ} (hal : PageAligned p) (h₁ : p ≠ 0x80001000)
    (h₂ : p ≠ 0x80002000) : ∀ b < 4096, twoFreePages.mem (p + b) = 0 := by
  intro b hb
  rw [twoFreePages_spec.2.byte_eq hal hb (by simp [h₁, h₂])]

theorem twoFreePages_tree :
    TableTree twoFreePages 0x80003000 [0x80001000, 0x80002000] := by
  have hal : PageAligned 0x80003000 := by decide
  refine ⟨hal, twoFreePages_spec.1, ?_⟩
  rw [tables, nodes_of_cleared (twoFreePages_cleared hal (by decide) (by decide))]
  decide

/-- The first page mapped in an empty table. -/
theorem map_page_one_translation_twoFreePages :
    ∃ s' e, mapPage 0x80003000 0x100000#64 0x80004000#64 (pteR ||| pteV) twoFreePages = some s' ∧
      leafEntry s'.mem 0x80003000 0x100000#64 = some e ∧ pteToPa e = 0x80004000#64 := by
  obtain ⟨s', -, -, hmap, hmapped, -⟩ := (map_page_one_translation 0x100000#64 0x80004000#64
    (pteR ||| pteV) twoFreePages_tree (by decide) (by decide) (by decide) (by decide)
    (by decide)).1
  obtain ⟨e, he, hpage, -⟩ := hmapped _ rfl
  exact ⟨s', e, hmap, he, hpage⟩

end RiscvKernel
