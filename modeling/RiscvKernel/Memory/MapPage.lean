import RiscvKernel.Memory.Mmu

/-!
# Mapping a page

What `walk_pte` and `map_page` do to a page table whose tables are all different and not on the
free list.

* `walkLevels_spec`: the walk that creates returns the leaf entry, and the table has only
  gained empty tables, at most one for each level above the leaf.
* `walkLevels_eq`: the walk that does not create changes nothing and finds the leaf entry
  exactly when the upper entries are valid.
* `mapPage_spec`: `PageMapped`, one translation changed and no other.
-/

namespace RiscvKernel

open ByteMemory RadixTable EntryFormat

variable {va pa flags : Word} {s s' : Phys} {free : List ℕ} {level table pgd : ℕ}

/-- The walk that does not create leaves the state alone and finds the leaf entry when there
is one. -/
theorem walkLevels_eq (va : Word) (level table : ℕ) (s : Phys) :
    walkLevels va false level table s
      = some ((sv39.slot s.mem (getVpn va) level table).getD 0, s) := by
  induction level generalizing table with
  | zero => rw [walkLevels, slot, Option.getD_some]
  | succ level ih =>
    rw [walkLevels, slot]
    dsimp only
    by_cases hv : loadWord s.mem (table + 8 * getVpn va (level + 1)) &&& pteV ≠ 0
    · rw [if_pos hv, ih, sv39_child_of_valid hv, Option.elim_some]
    · rw [if_neg hv, if_pos rfl, sv39_child_of_not_valid hv, Option.elim_none, Option.getD_none]

/-- The tables are empty but for their entries on the way to `va`, below a level; `a` is the
leaf entry of `va`. -/
def OnlyWay (m : Mem) (va : Word) (a level : ℕ) (new : List ℕ) : Prop :=
  ∀ q ∈ new, ∃ k < level, (k ≠ 0 → pageOf a ≠ q) ∧
    ∀ j < sv39.entries, j ≠ getVpn va k → loadWord m (q + 8 * j) = 0#64

/-- The walk that creates has come from `s` to `t` and returns `a`: the table has gained at most one
empty table for each level, none if the way was already there, and the way now leads to `a`. -/
structure Walked (s : Phys) (va : Word) (level table : ℕ) (free : List ℕ) (a : ℕ) (t : Phys)
    (new free' : List ℕ) : Prop where
  split : free = new ++ free'
  isFree : FreePages t free'
  length : new.length ≤ level
  grown : sv39.Grown s.mem t.mem level table ↑new
  slot : sv39.slot t.mem (getVpn va) level table = some a
  none : sv39.slot s.mem (getVpn va) level table ≠ none → new = []
  others : ∀ j < sv39.entries, j ≠ getVpn va level →
    loadWord t.mem (table + 8 * j) = loadWord s.mem (table + 8 * j)
  onlyWay : OnlyWay t.mem va a level new

/-- The fresh table `p` has been linked on the way to `va`. -/
structure Linked (s : Phys) (va : Word) (level table p : ℕ) (free : List ℕ) (t : Phys) : Prop where
  isPage : IsPage p
  isFree : FreePages t free
  grown : sv39.Grown s.mem t.mem (level + 1) table {p}
  cleared : ∀ b < 4096, t.mem (p + b) = 0
  child : sv39.child (loadWord t.mem (table + 8 * getVpn va (level + 1))) = some p
  others : ∀ j < sv39.entries, j ≠ getVpn va (level + 1) →
    loadWord t.mem (table + 8 * j) = loadWord s.mem (table + 8 * j)

section Levels

variable (htable : PageAligned table) (hnd : (sv39.tables s.mem (level + 2) table).Nodup)

include htable hnd

/-- The tables gained below an entry leave the other entries alone. -/
theorem entry_of_grown {m : Mem} {p : ℕ} {new : Multiset ℕ}
    (hp : sv39.child (loadWord s.mem (table + 8 * getVpn va (level + 1))) = some p)
    (hgrown : sv39.Grown s.mem m level p new)
    (hnew : ∀ x ∈ new, x ∉ sv39.tables s.mem (level + 2) table) {j : ℕ} (hj : j < sv39.entries) :
    loadWord m (table + 8 * j) = loadWord s.mem (table + 8 * j) := by
  -- the table itself is not below its entry
  have hself := self_notMem_below hnd (getVpn_lt va (level + 1))
  rw [below_of_some hp] at hself
  refine hgrown.eqOff.loadWord_eq htable (hj.trans_le sv39.fits) ?_
  rw [Multiset.mem_add, not_or]
  exact ⟨hself, fun hmem => hnew table hmem self_mem_tables⟩

/-- The walk below a valid entry. -/
theorem Walked.descend {a p : ℕ} {t : Phys} {new free' : List ℕ}
    (hp : sv39.child (loadWord s.mem (table + 8 * getVpn va (level + 1))) = some p)
    (h : Walked s va level p free a t new free')
    (hnew : ∀ x ∈ (new : Multiset ℕ), x ∉ sv39.tables s.mem (level + 2) table) :
    Walked s va (level + 1) table free a t new free' where
  split := h.split
  isFree := h.isFree
  length := h.length.trans (Nat.le_succ level)
  grown := h.grown.lift hnd htable (getVpn_lt va _) hp hnew
  slot := by rw [h.grown.slot_lift (getVpn_lt va) hnd htable hp hnew, h.slot]
  none := by
    rw [EntryFormat.slot, hp, Option.elim_some]
    exact h.none
  others _ hj _ := entry_of_grown htable hnd hp h.grown hnew hj
  onlyWay := by
    intro x hx
    obtain ⟨k, hk, hzero⟩ := h.onlyWay x hx
    exact ⟨k, by omega, hzero⟩

/-- A page taken from the free list is linked. -/
theorem linked_of_alloc {p : ℕ} {t : Phys} (hf : FreePages s (p :: free)) (hf' : FreePages t free)
    (hapart : ∀ x ∈ p :: free, x ∉ sv39.tables s.mem (level + 2) table)
    (hnone : sv39.child (loadWord s.mem (table + 8 * getVpn va (level + 1))) = none)
    (hoff : EqOff {p} s.mem t.mem) (hz : ∀ b < 4096, t.mem (p + b) = 0) :
    Linked s va level table p free { t with
      mem := storeWord t.mem (table + 8 * getVpn va (level + 1))
        (paToPte (BitVec.ofNat 64 p) pteV) } := by
  have hidx := getVpn_lt va
  have hpage : IsPage p := hf.isPage _ List.mem_cons_self
  have hlink : sv39.child (paToPte (BitVec.ofNat 64 p) pteV) = some p :=
    sv39_child_paToPte hpage.aligned hpage.lt (by decide) (by decide)
  have hnotin := hapart p List.mem_cons_self
  -- a free page is no table, so the link is not written into the new page
  have hne : p ≠ table := fun h => hnotin (h ▸ self_mem_tables)
  have hstore : EqOff {table} t.mem (storeWord t.mem (table + 8 * getVpn va (level + 1))
      (paToPte (BitVec.ofNat 64 p) pteV)) :=
    eqOff_storeWord _ htable ((hidx _).trans_le sv39.fits) _
  refine ⟨hpage, hf'.eqOff hstore fun x hx => ?_,
    grown_link_fresh hnd htable (hidx (level + 1)) hnone hlink hoff hz hnotin, fun b hb => ?_, ?_,
    fun j hj hne' => ?_⟩
  · rw [Multiset.mem_singleton]
    rintro rfl
    exact hapart x (List.mem_cons_of_mem _ hx) self_mem_tables
  · show storeWord t.mem _ _ (p + b) = 0
    rw [hstore.byte_eq hpage.aligned hb (by simpa using hne), hz b hb]
  · show sv39.child (loadWord (storeWord t.mem _ _) _) = some p
    rw [loadWord_storeWord, hlink]
  · -- of the table itself only the new link was written
    show loadWord (storeWord t.mem _ _) _ = _
    rw [loadWord_storeWord_of_ne _ _ _ hne'.symm]
    exact hoff.loadWord_eq htable (hj.trans_le sv39.fits) (by simpa using Ne.symm hne)

/-- The walk below a link that is new. -/
theorem Linked.walked {a p : ℕ} {t u : Phys} {new free' : List ℕ}
    (hl : Linked s va level table p free t) (hf : (p :: free).Nodup)
    (hapart : ∀ x ∈ p :: free, x ∉ sv39.tables s.mem (level + 2) table)
    (hnone : sv39.child (loadWord s.mem (table + 8 * getVpn va (level + 1))) = none)
    (h : Walked t va level p free a u new free') :
    Walked s va (level + 1) table (p :: free) a u (p :: new) free' := by
  have hidx := getVpn_lt va
  -- the new table is one more page below `table`, and it was free
  have hnd' : (sv39.tables t.mem (level + 2) table).Nodup := by
    rw [hl.grown.tables_eq, add_comm, Multiset.singleton_add, Multiset.nodup_cons]
    exact ⟨hapart p List.mem_cons_self, hnd⟩
  have hnew : ∀ x ∈ (new : Multiset ℕ), x ∉ sv39.tables t.mem (level + 2) table := by
    intro x hx
    have hx' : x ∈ free := by
      rw [h.split]
      exact List.mem_append_left _ hx
    rw [hl.grown.tables_eq, Multiset.mem_add, Multiset.mem_singleton, not_or]
    refine ⟨hapart x (List.mem_cons_of_mem _ hx'), ?_⟩
    rintro rfl
    exact (List.nodup_cons.mp hf).1 hx'
  have hnodup : ({p} + (new : Multiset ℕ)).Nodup := by
    rw [h.split, ← List.cons_append, List.nodup_append] at hf
    rw [Multiset.singleton_add, Multiset.cons_coe]
    exact hf.1
  refine ⟨by rw [h.split, List.cons_append], h.isFree, by simpa using h.length, ?_, ?_, ?_,
    fun j hj hne => ?_, fun x hx => ?_⟩
  · -- the walk below the new table is a walk from `table`
    exact hl.grown.trans (h.grown.lift hnd' htable (hidx _) hl.child hnew)
  · rw [h.grown.slot_lift hidx hnd' htable hl.child hnew, h.slot]
  · rw [slot, hnone, Option.elim_none]
    exact fun h => absurd rfl h
  · rw [entry_of_grown htable hnd' hl.child h.grown hnew hj, hl.others j hj hne]
  · rcases List.mem_cons.mp hx with rfl | hx
    · -- the link leads on from the new table by one entry, and its other entries are empty
      refine ⟨level, by omega, fun hlevel => ?_, fun j hj hne => ?_⟩
      · obtain ⟨l, rfl⟩ := Nat.exists_eq_succ_of_ne_zero hlevel
        refine pageOf_slot_ne hidx ?_ h.slot
        rw [h.grown.tables_eq, tables, nodes_of_cleared hl.cleared]
        exact hnodup
      · rw [h.others j hj hne]
        exact loadWord_of_cleared hl.cleared hj
    · obtain ⟨k, hk, hzero⟩ := h.onlyWay x hx
      exact ⟨k, by omega, hzero⟩

end Levels

/-- The walk that creates. -/
theorem walkLevels_spec (hf : FreePages s free) (htable : PageAligned table)
    (hnd : ((free : Multiset ℕ) + sv39.tables s.mem (level + 1) table).Nodup) :
    Outcome (free.length < level ∧ sv39.slot s.mem (getVpn va) level table = none)
      (fun r => ∃ new free' : List ℕ, Walked s va level table free r.1 r.2 new free')
      (walkLevels va true level table s) := by
  induction level generalizing table s free with
  | zero =>
    refine ⟨[], free, rfl, hf, le_rfl, ?_, ?_, fun _ => rfl, fun _ _ _ => rfl, by simp [OnlyWay]⟩
    · rw [Multiset.coe_nil]
      exact Grown.refl _ _ _
    · rw [slot]
  | succ level ih =>
    have hnd' := (Multiset.nodup_add.mp hnd).2.1
    have hapart : ∀ x ∈ free, x ∉ sv39.tables s.mem (level + 2) table :=
      fun x hx => Multiset.disjoint_left.mp (Multiset.nodup_add.mp hnd).2.2 hx
    rw [walkLevels, slot]
    dsimp only
    by_cases hv : loadWord s.mem (table + 8 * getVpn va (level + 1)) &&& pteV ≠ 0
    · -- the entry is valid: descend
      rw [if_pos hv]
      have hq := sv39_child_of_valid hv
      have hle : sv39.below (fun _ => 0) s.mem (level + 1)
          (loadWord s.mem (table + 8 * getVpn va (level + 1)))
            ≤ sv39.tables s.mem (level + 2) table := below_le_nodes (getVpn_lt va (level + 1))
      rw [below_of_some hq] at hle
      rw [hq, Option.elim_some]
      refine (ih hf (pteToPa_aligned _)
        (Multiset.nodup_of_le (by gcongr; exact hle) hnd)).mono (fun h => ⟨by omega, h.2⟩) ?_
      rintro ⟨a, t⟩ ⟨new, free', h⟩
      refine ⟨new, free', h.descend htable hnd' hq fun x hx => hapart x ?_⟩
      rw [h.split]
      exact List.mem_append_left _ hx
    · -- the entry is not valid: link a fresh table and descend into it
      have hnone := sv39_child_of_not_valid hv
      rw [if_neg hv, if_neg Bool.noConfusion, hnone, Option.elim_none]
      refine ((allocPage_spec hf).mono (fun h => ⟨by omega, rfl⟩) fun _ h => h).bind ?_
      rintro ⟨p, t⟩ ⟨free₁, hfree, hf₁, hoff, hz⟩
      subst hfree
      have hl := linked_of_alloc htable hnd' hf hf₁ hapart hnone hoff hz
      -- the new table is empty, so the tables below it are all different
      have hnd₁ : ((free₁ : Multiset ℕ) + sv39.tables (storeWord t.mem
          (table + 8 * getVpn va (level + 1)) (paToPte (BitVec.ofNat 64 p) pteV))
            (level + 1) p).Nodup := by
        rw [tables, nodes_of_cleared hl.cleared, add_comm, Multiset.singleton_add,
          Multiset.cons_coe, Multiset.coe_nodup]
        exact hf.nodup
      refine (ih hl.isFree hl.isPage.aligned hnd₁).mono (fun h => ?_) ?_
      · have := h.1
        exact ⟨by rw [List.length_cons]; omega, rfl⟩
      · rintro ⟨a, u⟩ ⟨new, free', h⟩
        exact ⟨p :: new, free', hl.walked htable hnd' hf.nodup hapart hnone h⟩

/-- The pages that are still free are not in the tree that has taken the first ones. -/
theorem grown_free_apart {m m' : Mem} {new free' : List ℕ}
    (h : sv39.Grown m m' level table ↑new) (hfree : free = new ++ free')
    (hnd : ((free : Multiset ℕ) + sv39.tables m (level + 1) table).Nodup) :
    ∀ x ∈ free', x ∉ sv39.tables m' (level + 1) table := by
  intro x hx
  rw [h.tables_eq, Multiset.mem_add, not_or]
  have hx' : x ∈ free := by
    rw [hfree]
    exact List.mem_append_right _ hx
  refine ⟨Multiset.disjoint_left.mp (Multiset.nodup_add.mp hnd).2.2 hx', fun hmem => ?_⟩
  have hnodup := (Multiset.nodup_add.mp hnd).1
  rw [hfree, Multiset.coe_nodup, List.nodup_append] at hnodup
  exact hnodup.2.2 x hmem x hx rfl

/-- From `s` to `s'`, `va` has been mapped to `pa` with the given flags in the page table
`pgd`, which has gained the tables `new`. -/
structure PageMapped (s s' : Phys) (pgd : ℕ) (va : Word) (p : ℕ) (flags : Word)
    (new : List ℕ) : Prop where
  /-- The tree has gained the new tables and exchanged the frame at `va`. -/
  nodes : ∀ leaf, sv39.nodes leaf s'.mem 3 pgd
      + (sv39.frameAt s.mem (getVpn va) 2 pgd).elim 0 leaf
    = sv39.nodes leaf s.mem 3 pgd + ↑new + leaf p
  /-- Only tables of the tree were written. -/
  eqOff : EqOff (sv39.tables s.mem 3 pgd + ↑new) s.mem s'.mem
  /-- The indices of `va` lead to the new entry, all others where they led before. -/
  leafAt : ∀ idx, (∀ k, idx k < sv39.entries) → sv39.leafAt s'.mem idx 2 pgd
    = if ∀ k ≤ 2, idx k = getVpn va k
      then some (paToPte (BitVec.ofNat 64 p) (flags ||| pteA ||| pteD))
      else sv39.leafAt s.mem idx 2 pgd
  /-- The way to a leaf entry stays. -/
  slot_of : ∀ idx a, (∀ k, idx k < sv39.entries) → sv39.slot s.mem idx 2 pgd = some a →
    sv39.slot s'.mem idx 2 pgd = some a
  /-- There is a way to the leaf entry of `va` now. -/
  slot : sv39.slot s'.mem (getVpn va) 2 pgd ≠ none

/-- The tables are the old ones and the new ones. -/
theorem PageMapped.tables_eq {p : ℕ} {new : List ℕ} (h : PageMapped s s' pgd va p flags new) :
    sv39.tables s'.mem 3 pgd = sv39.tables s.mem 3 pgd + ↑new := by
  have hnodes := h.nodes fun _ => 0
  have hzero : (sv39.frameAt s.mem (getVpn va) 2 pgd).elim (0 : Multiset ℕ) (fun _ => 0) = 0 := by
    cases sv39.frameAt s.mem (getVpn va) 2 pgd <;> rfl
  rwa [hzero, add_zero, add_zero] at hnodes

theorem or_toNat_lt {x y : Word} {n : ℕ} (hx : x.toNat < 2 ^ n) (hy : y.toNat < 2 ^ n) :
    (x ||| y).toNat < 2 ^ n := by
  rw [BitVec.toNat_or]
  exact Nat.or_lt_two_pow hx hy

/-- `map_page` maps one page, taking at most two free pages for tables, and none when the
upper entries were valid. -/
theorem mapPage_spec {p : ℕ} (hf : FreePages s free) (hpgd : PageAligned pgd)
    (hnd : ((free : Multiset ℕ) + sv39.tables s.mem 3 pgd).Nodup) (hal : PageAligned p)
    (hlt : p < 2 ^ 56) (hflags : flags.toNat < 2 ^ 10) (hv : flags &&& pteV ≠ 0) :
    Outcome (free.length < 2 ∧ sv39.slot s.mem (getVpn va) 2 pgd = none)
      (fun s' => ∃ new free' : List ℕ, free = new ++ free' ∧ FreePages s' free' ∧
        new.length ≤ 2 ∧ (sv39.slot s.mem (getVpn va) 2 pgd ≠ none → new = []) ∧
        PageMapped s s' pgd va p flags new)
      (mapPage pgd va (BitVec.ofNat 64 p) flags s) := by
  have hidx := getVpn_lt va
  refine (walkLevels_spec hf hpgd hnd).bind ?_
  rintro ⟨a, t⟩ ⟨new, free', hfree, hf', hlen, hgrown, hslot, hnone, -⟩
  -- the walk only takes tables from the free list, so no table is used twice
  have hnd' : (sv39.tables t.mem 3 pgd).Nodup := by
    rw [hgrown.tables_eq, add_comm]
    refine Multiset.nodup_of_le ?_ hnd
    gcongr
    rw [hfree, ← Multiset.coe_add]
    exact Multiset.le_add_right _ _
  set e := paToPte (BitVec.ofNat 64 p) (flags ||| pteA ||| pteD) with he
  -- `PTE_V` is among the flags, so the new entry leads to `p`
  have hchild : sv39.child e = some p := by
    apply sv39_child_paToPte hal hlt
    · exact or_toNat_lt (or_toNat_lt hflags (by decide)) (by decide)
    · intro hzero
      apply hv
      rw [BitVec.and_or_distrib_right, BitVec.and_or_distrib_right] at hzero
      exact (BitVec.or_eq_zero_iff.mp (BitVec.or_eq_zero_iff.mp hzero).1).1
  have hstore : EqOff (sv39.tables t.mem 3 pgd) t.mem (storeWord t.mem a e) :=
    eqOff_storeLeaf hidx hpgd hslot e
  refine ⟨new, free', hfree, ?_, hlen, hnone, fun leaf => ?_, ?_, fun idx hidx' => ?_,
    fun idx b hidx' hb => ?_, ?_⟩
  · exact hf'.eqOff hstore (grown_free_apart hgrown hfree hnd)
  · -- what the entry led to before goes, and `p` comes in its place
    have hframe : sv39.frameAt s.mem (getVpn va) 2 pgd = sv39.child (loadWord t.mem a) := by
      rw [frameAt, ← hgrown.leafAt_eq _ hidx, ← frameAt, frameAt_of_slot hslot]
    rw [hframe, nodes_storeLeaf hidx hnd' hpgd hslot, hgrown.nodes_eq, hchild]
    rfl
  · apply (hgrown.eqOff.trans hstore).mono
    intro x hx
    rw [hgrown.tables_eq] at hx
    simp only [Multiset.mem_add] at hx ⊢
    tauto
  · rw [leafAt_storeLeaf hidx hnd' hpgd hslot e hidx', hgrown.leafAt_eq idx hidx', present, hchild]
    rfl
  · rw [slot_storeLeaf hidx hnd' hpgd hslot e hidx']
    exact hgrown.slot_of idx b hidx' hb
  · rw [slot_storeLeaf hidx hnd' hpgd hslot e hidx, hslot]
    exact Option.some_ne_none a

end RiscvKernel
