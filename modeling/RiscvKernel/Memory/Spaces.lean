import Mathlib.Tactic.DeriveFintype
import RiscvKernel.Exec.Replace
import RiscvKernel.Lib.Ledger
import RiscvKernel.Memory.Boot

/-!
# Who holds which page

The managed pages as a stock, held by the free list, the kernel's own page table and the page
tables of the tasks (`held`). `Spaces` says that no page is held twice, and that every task's
page table leads to pages of the task or, read-only, to the kernel's text and read-only data.

* `Spaces.update`: one task exchanges pages with the free list; every other table is unchanged.
* `Spaces.freeUserPageTable`, `Spaces.copyUserPageTable`, `Spaces.loadImage`: what exit, fork
  and exec do to the pages.
-/

namespace RiscvKernel

open ByteMemory RadixTable EntryFormat Ledger

/-- Who can hold a managed page: the free list, the kernel's own page table, a task. -/
inductive Holder (n : ℕ)
  | free
  | kernel
  | task (id : Fin n)
  deriving DecidableEq, Fintype

variable {n : ℕ}

/-- The pages of a task with the given page table, if it has one. -/
def ownedBy (kernelEnd : ℕ) (m : Mem) (pgd : Option ℕ) : Multiset ℕ :=
  pgd.elim 0 (owned kernelEnd m 3)

/-- The pages everybody holds. -/
def held (L : Layout n) (m : Mem) (root : ℕ) (pgd : Fin n → Option ℕ) (free : List ℕ) :
    Holder n → Multiset ℕ
  | .free => ↑free
  | .kernel => sv39.tables m 3 root
  | .task id => ownedBy L.kernelEnd m (pgd id)

/-- What every page table of a task leads to: allowed pages only, and a stack page. -/
structure SpaceOk (L : Layout n) (m : Mem) (p : ℕ) : Prop where
  leafOk : ∀ va e, leafEntry m p va = some e → LeafOk L e
  stack : leafEntry m p userStackPageVa ≠ none

/-- No managed page is held twice, and none is lost if `fits` holds; the page tables of the
tasks are as they should be. -/
structure Spaces (L : Layout n) (fits : Prop) (s : Phys) (root : ℕ) (pgd : Fin n → Option ℕ)
    (free : List ℕ) : Prop where
  isFree : FreePages s free
  within : Within L.managed (held L s.mem root pgd free)
  settled : fits → Settled L.managed (held L s.mem root pgd free)
  ok : ∀ id p, pgd id = some p → SpaceOk L s.mem p

variable {L : Layout n} {fits : Prop} {s s' : Phys} {root p q x : ℕ} {pgd : Fin n → Option ℕ}
  {free free' : List ℕ} {id c d : Fin n} {m m' : Mem} {S : Multiset ℕ} {kernelEnd : ℕ}

@[simp]
theorem ownedBy_none : ownedBy kernelEnd m none = 0 := rfl

@[simp]
theorem ownedBy_some : ownedBy kernelEnd m (some p) = owned kernelEnd m 3 p := rfl

theorem held_task (L : Layout n) (m : Mem) (root : ℕ) (pgd : Fin n → Option ℕ) (free : List ℕ)
    (id : Fin n) : held L m root pgd free (.task id) = ownedBy L.kernelEnd m (pgd id) := rfl

namespace Spaces

theorem mem_managed (h : Spaces L fits s root pgd free) (o : Holder n)
    (hx : x ∈ held L s.mem root pgd free o) : x ∈ L.managed :=
  h.within.mem hx

theorem isPage (h : Spaces L fits s root pgd free) (o : Holder n)
    (hx : x ∈ held L s.mem root pgd free o) : IsPage x :=
  Layout.isPage_of_mem_managed (h.mem_managed o hx)

theorem notMem (h : Spaces L fits s root pgd free) (o o' : Holder n) (hne : o ≠ o')
    (hx : x ∈ held L s.mem root pgd free o) : x ∉ held L s.mem root pgd free o' :=
  h.within.notMem_of_ne L.nodup_managed hne hx

theorem mem_held_task (hp : pgd id = some p) :
    x ∈ held L m root pgd free (.task id) ↔ x ∈ owned L.kernelEnd m 3 p := by
  rw [held_task, hp, ownedBy_some]

theorem isPage_pgd (h : Spaces L fits s root pgd free) (hp : pgd id = some p) : IsPage p :=
  h.isPage (.task id) ((mem_held_task hp).mpr self_mem_owned)

theorem isPage_root (h : Spaces L fits s root pgd free) : IsPage root :=
  h.isPage .kernel self_mem_tables

/-- Different tasks have different page tables. -/
theorem pgd_ne (h : Spaces L fits s root pgd free) (hp : pgd c = some p) (hq : pgd d = some q)
    (hne : c ≠ d) : p ≠ q := by
  rintro rfl
  exact h.notMem (.task c) (.task d) (fun heq => hne (Holder.task.inj heq))
    ((mem_held_task hp).mpr self_mem_owned) ((mem_held_task hq).mpr self_mem_owned)

/-- What may be written on behalf of task `c`, free pages, its own and the kernel image, is no
page of another table. -/
theorem touched_apart (h : Spaces L fits s root pgd free) (c : Fin n)
    (hx : x ∈ L.image ∨ x ∈ (free : Multiset ℕ) + ownedBy L.kernelEnd s.mem (pgd c)) :
    x ∉ sv39.tables s.mem 3 root ∧
      ∀ id p, id ≠ c → pgd id = some p → x ∉ owned L.kernelEnd s.mem 3 p := by
  have htask : ∀ id p, id ≠ c → pgd id = some p → ∀ o : Holder n, o = .free ∨ o = .task c →
      x ∈ held L s.mem root pgd free o → x ∉ owned L.kernelEnd s.mem 3 p := by
    intro id p hne hp o ho hx'
    rw [← mem_held_task hp]
    refine h.notMem o _ ?_ hx'
    rcases ho with rfl | rfl
    · simp
    · simpa using hne.symm
  rcases hx with himage | hx
  · have hout := Layout.notMem_managed_of_image himage
    exact ⟨fun hmem => hout (h.mem_managed .kernel hmem),
      fun id p _ hp hmem => hout (h.mem_managed (.task id) ((mem_held_task hp).mpr hmem))⟩
  rcases Multiset.mem_add.mp hx with hx | hx
  · exact ⟨h.notMem .free .kernel (by simp) hx,
      fun id p hne hp => htask id p hne hp .free (Or.inl rfl) hx⟩
  · exact ⟨h.notMem (.task c) .kernel (by simp) hx,
      fun id p hne hp => htask id p hne hp (.task c) (Or.inr rfl) hx⟩

/-- A change of managed pages is none of the kernel image. -/
theorem eq_below (h : Spaces L fits s root pgd free) (c : Fin n) (hm : EqOff S m m')
    (hS : ∀ x ∈ S, x ∈ (free : Multiset ℕ) + ownedBy L.kernelEnd s.mem (pgd c)) {a : ℕ}
    (ha : a < L.kernelEnd) : m' a = m a := by
  apply hm
  intro hmem
  have hmanaged : pageOf a ∈ L.managed := by
    rcases Multiset.mem_add.mp (hS _ hmem) with hfree | howned
    · exact h.mem_managed .free hfree
    · exact h.mem_managed (.task c) howned
  have hge := (Layout.mem_managed.mp hmanaged).2.1
  have := pageOf_add_mod a
  omega

/-- A change that touches no free page and no table keeps everything. -/
theorem eqOff (h : Spaces L fits s root pgd free) (hm : EqOff S s.mem m)
    (hfree : ∀ x ∈ free, x ∉ S) (hroot : ∀ x ∈ sv39.tables s.mem 3 root, x ∉ S)
    (htables : ∀ id p, pgd id = some p → ∀ x ∈ sv39.tables s.mem 3 p, x ∉ S) :
    Spaces L fits { s with mem := m } root pgd free := by
  -- what each holder reaches is read from table pages, which are as they were
  have hheld : held L m root pgd free = held L s.mem root pgd free := by
    funext o
    cases o with
    | free => rfl
    | kernel => exact tables_eqOff hm h.isPage_root.aligned hroot
    | task id =>
      cases hp : pgd id with
      | none => rw [held_task, held_task, hp, ownedBy_none, ownedBy_none]
      | some p =>
        rw [held_task, held_task, hp, ownedBy_some, ownedBy_some]
        exact nodes_eqOff hm (h.isPage_pgd hp).aligned (htables id p hp)
  refine ⟨h.isFree.eqOff hm hfree, ?_, fun hfits => ?_, fun id p hp => ?_⟩
  · change Within L.managed (held L m root pgd free)
    rw [hheld]
    exact h.within
  · change Settled L.managed (held L m root pgd free)
    rw [hheld]
    exact h.settled hfits
  · have hentry : ∀ va, leafEntry m p va = leafEntry s.mem p va :=
      fun va => leafAt_eqOff (getVpn_lt va) hm (h.isPage_pgd hp).aligned (htables id p hp)
    refine ⟨fun va e he => (h.ok id p hp).leafOk va e ?_, ?_⟩
    · rwa [← hentry]
    · change leafEntry m p _ ≠ none
      rw [hentry]
      exact (h.ok id p hp).stack

/-- A change of the kernel image keeps everything. -/
theorem eqOff_image (h : Spaces L fits s root pgd free) (hm : EqOff L.image s.mem m) :
    Spaces L fits { s with mem := m } root pgd free := by
  have hout : ∀ o x, x ∈ held L s.mem root pgd free o → x ∉ L.image :=
    fun o x hx himage => Layout.notMem_managed_of_image himage (h.mem_managed o hx)
  refine h.eqOff hm (hout .free) (hout .kernel) fun id p hp x hx => hout (.task id) x ?_
  rw [mem_held_task hp]
  exact Multiset.mem_of_le (tables_le_nodes _ _ _ _) hx

/-- Task `c` exchanges pages with the free list, and its page table with another one. -/
theorem update (h : Spaces L fits s root pgd free) (c : Fin n) (r : Option ℕ)
    (hm : EqOff S s.mem s'.mem)
    (hS : ∀ x ∈ S, x ∈ L.image ∨ x ∈ (free : Multiset ℕ) + ownedBy L.kernelEnd s.mem (pgd c))
    (hf : FreePages s' free')
    (hle : ↑free' + ownedBy L.kernelEnd s'.mem r ≤ ↑free + ownedBy L.kernelEnd s.mem (pgd c))
    (heq : fits →
      ↑free' + ownedBy L.kernelEnd s'.mem r = ↑free + ownedBy L.kernelEnd s.mem (pgd c))
    (hok : ∀ p, r = some p → SpaceOk L s'.mem p) :
    Spaces L fits s' root (Function.update pgd c r) free' := by
  -- nothing was written to what the others hold
  have hothers : ∀ o : Holder n, o ≠ .free → o ≠ .task c →
      held L s'.mem root (Function.update pgd c r) free' o = held L s.mem root pgd free o := by
    intro o hfree htask
    cases o with
    | free => exact absurd rfl hfree
    | kernel =>
      exact tables_eqOff hm h.isPage_root.aligned fun x hx hxS =>
        (h.touched_apart c (hS x hxS)).1 hx
    | task id =>
      have hne : id ≠ c := fun heq => htask (by rw [heq])
      rw [held_task, held_task, Function.update_of_ne hne]
      cases hp : pgd id with
      | none => rw [ownedBy_none, ownedBy_none]
      | some p =>
        rw [ownedBy_some, ownedBy_some]
        exact owned_eqOff hm (h.isPage_pgd hp).aligned
          fun x hx hxS => (h.touched_apart c (hS x hxS)).2 id p hne hp hx
  have hself : held L s'.mem root (Function.update pgd c r) free' (.task c)
      = ownedBy L.kernelEnd s'.mem r := by
    rw [held_task, Function.update_self]
  refine ⟨hf, ?_, fun hfits => ?_, fun id p hp => ?_⟩
  · -- pages have moved between the free list and task `c` only
    refine h.within.exchange (i := .free) (j := .task c) (by simp) hothers ?_
    rw [hself]
    exact hle
  · refine (h.settled hfits).exchange (i := .free) (j := .task c) (by simp) hothers ?_
    rw [hself]
    exact heq hfits
  · by_cases hid : id = c
    · subst hid
      rw [Function.update_self] at hp
      exact hok p hp
    · -- the table of another task leads where it led
      rw [Function.update_of_ne hid] at hp
      have hout : ∀ x ∈ owned L.kernelEnd s.mem 3 p, x ∉ S :=
        fun x hx hxS => (h.touched_apart c (hS x hxS)).2 id p hid hp hx
      have hentry : ∀ va, leafEntry s'.mem p va = leafEntry s.mem p va :=
        fun va => leafEntry_eqOff hm (h.isPage_pgd hp).aligned hout
      refine ⟨fun va e he => (h.ok id p hp).leafOk va e ?_, ?_⟩
      · rwa [← hentry]
      · rw [hentry]
        exact (h.ok id p hp).stack

end Spaces

/-! ### Freeing -/

namespace Spaces

theorem nodup_free_owned (h : Spaces L fits s root pgd free) (hp : pgd c = some p) :
    ((free : Multiset ℕ) + owned L.kernelEnd s.mem 3 p).Nodup := by
  have hle := h.within.add_le (i := .free) (j := .task c) (by simp)
  rw [held_task, hp, ownedBy_some] at hle
  exact Multiset.nodup_of_le hle L.nodup_managed

/-- The page table of a task is its own, in the kernel's terms. -/
theorem privateTree (h : Spaces L fits s root pgd free) (hp : pgd c = some p) :
    PrivateTree L.kernelEnd root s p free := by
  have hheld : ∀ x ∈ owned L.kernelEnd s.mem 3 p, x ∈ held L s.mem root pgd free (.task c) :=
    fun x hx => (mem_held_task hp).mpr hx
  have htables : ∀ x ∈ sv39.tables s.mem 3 p, x ∈ owned L.kernelEnd s.mem 3 p :=
    fun x hx => Multiset.mem_of_le (tables_le_nodes _ _ _ _) hx
  have habove : ∀ o : Holder n, ∀ x ∈ held L s.mem root pgd free o, L.kernelEnd ≤ x :=
    fun o x hx => (Layout.mem_managed.mp (h.mem_managed o hx)).2.1
  refine ⟨⟨(h.isPage_pgd hp).aligned, h.isPage_root.aligned, h.isFree, h.nodup_free_owned hp,
    fun x hx => h.isPage _ (hheld x hx), habove .free,
    fun hfree => h.notMem .kernel .free (by simp) self_mem_tables hfree, ?_⟩,
    fun x hx => habove (.task c) x (hheld x (htables x hx)), fun x hx hmem => ?_⟩
  · exact sharesNothing_of_apart fun x hx =>
      h.notMem (.task c) .kernel (by simp) (hheld x (htables x hx))
  · rcases Multiset.mem_add.mp hmem with hfree | howned
    · exact h.notMem .kernel .free (by simp) hx hfree
    · exact h.notMem (.task c) .kernel (by simp) (hheld x howned) hx

/-- Exit: the pages of a task go back to the free list. -/
theorem freeUserPageTable (h : Spaces L fits s root pgd free) (hp : pgd c = some p) :
    ∃ free', Spaces L fits (RiscvKernel.freeUserPageTable L.kernelEnd root p s) root
        (Function.update pgd c none) free' ∧
      EqOff (owned L.kernelEnd s.mem 3 p) s.mem
        (RiscvKernel.freeUserPageTable L.kernelEnd root p s).mem := by
  obtain ⟨free', hf, hfree, hoff⟩ := (h.privateTree hp).freeUserPageTable
  refine ⟨free', h.update c none hoff ?_ hf ?_ ?_ (by simp), hoff⟩
  · rw [hp, ownedBy_some]
    exact fun x hx => Or.inr (Multiset.mem_add.mpr (Or.inr hx))
  · rw [hp, ownedBy_some, ownedBy_none, add_zero, hfree]
  · intro _
    rw [hp, ownedBy_some, ownedBy_none, add_zero, hfree]

/-! ### Copying -/

/-- Fork: task `d` gets a copy of the page table of task `c`. -/
theorem copyUserPageTable (h : Spaces L fits s root pgd free) (hp : pgd c = some p)
    (hd : pgd d = none) :
    Outcome (free.length < (sv39.pages s.mem 3 p).card)
      (fun r => ∃ free', Spaces L fits r.2 root (Function.update pgd d (some r.1)) free' ∧
        EqOff ↑free s.mem r.2.mem ∧ SameSpace s.mem r.2.mem p r.1 ∧
        (sv39.pages r.2.mem 3 r.1).card = (sv39.pages s.mem 3 p).card)
      (RiscvKernel.copyUserPageTable root p s) := by
  refine (h.privateTree hp).copyUserPageTable.mono id ?_
  rintro ⟨dst, s'⟩ ⟨new, free', rfl, htree, howned, hcopied⟩
  dsimp only at htree howned hcopied
  -- all pages of the copy were free before, and free pages are above the kernel
  have hpages : ∀ x ∈ sv39.pages s'.mem 3 dst, L.kernelEnd ≤ x := by
    intro x hx
    rw [hcopied.pages] at hx
    exact (Layout.mem_managed.mp (h.mem_managed .free (List.mem_append_left _ hx))).2.1
  have hentry : ∀ va e, leafEntry s'.mem dst va = some e → L.kernelEnd ≤ (pteToPa e).toNat := by
    intro va e he
    apply hpages
    have hle : sv39.tables s'.mem 3 dst + {(pteToPa e).toNat} ≤ sv39.pages s'.mem 3 dst :=
      tables_add_leaf_le (getVpn_lt va) (child_of_leafEntry he).2
    exact Multiset.mem_of_le hle (Multiset.mem_add.mpr (Or.inr (Multiset.mem_singleton_self _)))
  have hsame := sameSpace_of_sameTree hcopied.same
  have hoff : EqOff ↑(new ++ free') s.mem s'.mem :=
    hcopied.eqOff.mono fun x hx => List.mem_append_left _ hx
  refine ⟨free', h.update d (some dst) hoff ?_ htree.isFree ?_ ?_ ?_, hoff, hsame,
    hcopied.same.card_pages⟩
  · rw [hd, ownedBy_none, add_zero]
    exact fun x hx => Or.inr hx
  · rw [hd, ownedBy_none, ownedBy_some, howned, add_zero, add_comm, Multiset.coe_add]
  · intro _
    rw [hd, ownedBy_none, ownedBy_some, howned, add_zero, add_comm, Multiset.coe_add]
  · rintro q hq
    obtain rfl := Option.some.inj hq
    exact ⟨fun va e he => Or.inl (hentry va e he), hsame.leafEntry_ne_none (h.ok c p hp).stack⟩

end Spaces

/-! ### Loading -/

/-- A table that the loader has built is as it should be. -/
theorem spaceOk_of_hasImage {img : AppImage} {maps : List Mapping} {taken : List ℕ}
    (h : HasImage L.kernelEnd img m p maps taken) : SpaceOk L m p := by
  refine ⟨fun va e he => ?_, ?_⟩
  · obtain ⟨x, hx, -, rfl⟩ := exists_of_leafEntry h.built he
    have hloaded := (h.loaded x hx).loaded
    rw [LeafOk, hloaded.ok.pteToPa_entry]
    exact Or.inl hloaded.frame
  · have hmem : userStackPageVa ∈ maps.map Mapping.va := by
      rw [h.vas, List.mem_reverse, mappedPages]
      exact List.mem_cons_self
    obtain ⟨y, hy, hva⟩ := List.mem_map.mp hmem
    rw [← hva]
    exact leafEntry_ne_none_of_built h.built hy

namespace Spaces

/-- Exec: task `c` gets a page table with the loaded image, and the pages of its old one go back
to the free list. In between, only the kernel image is written. -/
theorem loadImage {img : AppImage} (h : Spaces L fits s root pgd free) (hp : pgd c = some p)
    (hfits : fits → (mappedPages img).Pairwise fun p q => leafSlot p ≠ leafSlot q) :
    Outcome (free.length < 4 + 3 * (segmentPages img).length)
      (fun r => IsPage r.1 ∧ EqOff ↑free s.mem r.2.mem ∧
        ∀ u : Phys, u.freeList = r.2.freeList → EqOff L.image r.2.mem u.mem →
        let s' := RiscvKernel.freeUserPageTable L.kernelEnd root p u
        EqOff (owned L.kernelEnd s.mem 3 p) u.mem s'.mem ∧
        ∃ free', Spaces L fits s' root (Function.update pgd c (some r.1)) free')
      (RiscvKernel.loadImage img s) := by
  have hroot := (Layout.mem_managed.mp (h.mem_managed .kernel self_mem_tables)).2.1
  refine ((h.privateTree hp).loadImage hroot).mono id ?_
  rintro ⟨newPgd, t⟩ ⟨maps, taken, free', ⟨rfl, -⟩, hpage, hoff, hreplaced⟩
  dsimp only at hpage hoff hreplaced ⊢
  have htaken : ∀ x ∈ taken, x ∈ taken ++ free' := fun x hx => List.mem_append_left _ hx
  refine ⟨hpage, hoff.mono htaken, fun u hlist himage => ?_⟩
  obtain ⟨hasImage, hoff'', free'', hf'', hfree''⟩ :=
    hreplaced u L.image hlist himage fun x hx => (Layout.mem_image.mp hx).2
  -- what the new table has taken and what the old one has given back are all there is
  have htotal : (free'' : Multiset ℕ) + ↑taken =
      ↑(taken ++ free') + owned L.kernelEnd s.mem 3 p := by
    rw [hfree'', ← Multiset.coe_add]
    abel
  refine ⟨hoff'', free'', h.update c (some newPgd) ((hoff.trans himage).trans hoff'')
    ?_ hf'' ?_ ?_ ?_⟩
  · -- what was written to was free or belonged to the old table
    intro x hx
    rw [hp, ownedBy_some]
    simp only [Multiset.mem_add] at hx ⊢
    rcases hx with (hx | hx) | hx
    · exact Or.inr (Or.inl (htaken x hx))
    · exact Or.inl hx
    · exact Or.inr (Or.inr hx)
  · rw [hp, ownedBy_some, ownedBy_some, ← htotal]
    gcongr
    exact hasImage.built.owned_le
  · intro hf
    rw [hp, ownedBy_some, ownedBy_some, ← htotal,
      hasImage.built.owned_eq (hasImage.slotsDiffer (hfits hf))]
  · rintro q hq
    obtain rfl := Option.some.inj hq
    exact spaceOk_of_hasImage hasImage

end Spaces

end RiscvKernel
