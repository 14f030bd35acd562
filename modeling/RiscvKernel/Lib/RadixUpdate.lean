import Mathlib.Data.Multiset.UnionInter
import RiscvKernel.Lib.RadixTable

/-!
# Changes inside a radix table

A change that is confined to what is below one entry of a table can be judged from that
entry's child alone (`nodes_descend`, `slot_descend`). From this come the two changes a mapper
makes:

* `Grown m m' l p new`: the table `p` of level `l` has gained the empty tables `new` and
  nothing else; `grown_link` links one, `Grown.lift` carries a growth from a child to its
  parent.
* `nodes_storeLeaf`, `slot_storeLeaf`, `leafAt_storeLeaf`: a leaf entry is replaced.

Both ask that no table is reached twice.
-/

namespace RadixTable

open ByteMemory

namespace EntryFormat

variable {F : EntryFormat} {leaf : ℕ → Multiset ℕ} {m m' m'' : Mem} {S : Multiset ℕ}
  {h l p q i j : ℕ} {e : Word} {idx idx' : ℕ → ℕ}

/-! ### Disjointness inside a tree -/

/-- What is below two different entries is counted separately. -/
theorem below_add_below_le (hi : i < F.entries) (hj : j < F.entries) (hij : i ≠ j) :
    {p} + (F.below leaf m h (loadWord m (p + 8 * i)) + F.below leaf m h (loadWord m (p + 8 * j)))
      ≤ F.nodes leaf m (h + 1) p := by
  rw [nodes_split m h p hi, add_assoc]
  gcongr
  rw [besides]
  refine Finset.single_le_sum (f := fun j => F.below leaf m h (loadWord m (p + 8 * j))) ?_ ?_
  · exact fun _ _ => Multiset.zero_le _
  · rw [Finset.mem_erase, Finset.mem_range]
    exact ⟨hij.symm, hj⟩

theorem self_notMem_below (hnd : (F.nodes leaf m (h + 1) p).Nodup) (hi : i < F.entries) :
    p ∉ F.below leaf m h (loadWord m (p + 8 * i)) := by
  rw [nodes_split m h p hi, add_assoc, Multiset.singleton_add, Multiset.nodup_cons,
    Multiset.mem_add, not_or] at hnd
  exact hnd.1.1

theorem nodup_below (hnd : (F.nodes leaf m (h + 1) p).Nodup) (hi : i < F.entries) :
    (F.below leaf m h (loadWord m (p + 8 * i))).Nodup :=
  Multiset.nodup_of_le (below_le_nodes hi) hnd

/-- Two different entries lead to different pages. -/
theorem notMem_below_of_ne (hnd : (F.nodes leaf m (h + 1) p).Nodup) (hi : i < F.entries)
    (hj : j < F.entries) (hij : i ≠ j) {x : ℕ}
    (hx : x ∈ F.below leaf m h (loadWord m (p + 8 * i))) :
    x ∉ F.below leaf m h (loadWord m (p + 8 * j)) := by
  have hle := Multiset.nodup_of_le (below_add_below_le hi hj hij) hnd
  rw [Multiset.nodup_add] at hle
  exact Multiset.disjoint_left.mp (Multiset.nodup_add.mp hle.2.1).2.2 hx

/-- A tree without repeated tables has no repeated table below a valid entry. -/
theorem nodup_tables_child (hnd : (F.tables m (h + 1) p).Nodup) (hi : i < F.entries)
    (hq : F.child (loadWord m (p + 8 * i)) = some q) : (F.tables m h q).Nodup := by
  have := nodup_below hnd hi
  rwa [below_of_some hq] at this

/-! ### Descending into one entry -/

/-- Every page of `S` that belongs to the tree of `p` lies below its child `q`. -/
def Confined (F : EntryFormat) (m : Mem) (S : Multiset ℕ) (h p q : ℕ) : Prop :=
  ∀ x ∈ S, x ∈ F.tables m (h + 1) p → x ∈ F.tables m h q

section Descend

variable (hnd : (F.tables m (h + 1) p).Nodup) (hp : PageAligned p) (hi : i < F.entries)
  (hq : F.child (loadWord m (p + 8 * i)) = some q) (hm : EqOff S m m')
  (hS : F.Confined m S h p q)

include hnd hi hq hS

theorem Confined.self_notMem : p ∉ S := by
  intro hx
  have hmem := hS p hx self_mem_tables
  have hnot := self_notMem_below hnd hi
  rw [below_of_some hq] at hnot
  exact hnot hmem

theorem Confined.notMem_other (hj : j < F.entries) (hij : i ≠ j) {x : ℕ}
    (hx : x ∈ F.below (fun _ => 0) m h (loadWord m (p + 8 * j))) : x ∉ S := by
  intro hxS
  have hmem := hS x hxS (Multiset.mem_of_le (below_le_nodes hj) hx)
  refine notMem_below_of_ne hnd hi hj hij ?_ hx
  rw [below_of_some hq]
  exact hmem

include hp hm

/-- A confined change leaves every entry of the table as it is. -/
theorem Confined.loadWord_eq (hj : j < F.entries) :
    loadWord m' (p + 8 * j) = loadWord m (p + 8 * j) :=
  hm.loadWord_eq hp (hj.trans_le F.fits) (Confined.self_notMem hnd hi hq hS)

/-- A confined change leaves what is below the other entries as it is. -/
theorem Confined.below_eq (hj : j < F.entries) (hij : i ≠ j) :
    F.below leaf m' h (loadWord m' (p + 8 * j)) = F.below leaf m h (loadWord m (p + 8 * j)) := by
  rw [Confined.loadWord_eq hnd hp hi hq hm hS hj]
  apply below_congr
  intro r hr
  apply nodes_eqOff hm (F.aligned _ _ hr)
  intro x hx
  refine Confined.notMem_other hnd hi hq hS hj hij ?_
  rw [below_of_some hr]
  exact hx

theorem Confined.besides_eq : F.besides leaf m' h p i = F.besides leaf m h p i := by
  refine Finset.sum_congr rfl fun j hj => ?_
  rw [Finset.mem_erase, Finset.mem_range] at hj
  exact Confined.below_eq hnd hp hi hq hm hS hj.2 hj.1.symm

variable (leaf) in
/-- The pages of a table after a change confined to one child, from that child's pages. -/
theorem nodes_descend :
    F.nodes leaf m' (h + 1) p + F.nodes leaf m h q
      = F.nodes leaf m (h + 1) p + F.nodes leaf m' h q := by
  have hq' : F.child (loadWord m' (p + 8 * i)) = some q := by
    rw [Confined.loadWord_eq hnd hp hi hq hm hS hi, hq]
  rw [nodes_split m' h p hi, nodes_split m h p hi, below_of_some hq, below_of_some hq',
    Confined.besides_eq hnd hp hi hq hm hS]
  abel

end Descend

/-- Where indices lead after a change confined to what is below entry `i`. -/
theorem slot_descend (hidx : ∀ k, idx k < F.entries) (hnd : (F.tables m (l + 2) p).Nodup)
    (hp : PageAligned p) (hi : i < F.entries)
    (hq : F.child (loadWord m (p + 8 * i)) = some q) (hm : EqOff S m m')
    (hS : F.Confined m S (l + 1) p q) :
    F.slot m' idx (l + 1) p
      = if idx (l + 1) = i then F.slot m' idx l q else F.slot m idx (l + 1) p := by
  rw [slot_succ, slot_succ, Confined.loadWord_eq hnd hp hi hq hm hS (hidx _)]
  split_ifs with heq
  · rw [heq, hq]
    rfl
  · cases hr : F.child (loadWord m (p + 8 * idx (l + 1))) with
    | none => rfl
    | some r =>
      apply slot_eqOff hidx hm (F.aligned _ _ hr)
      intro x hx
      refine Confined.notMem_other hnd hi hq hS (hidx (l + 1)) (Ne.symm heq) ?_
      rw [below_of_some hr]
      exact hx

/-- Which leaf entries have a frame after a change confined to what is below entry `i`. -/
theorem leafAt_descend (hidx : ∀ k, idx k < F.entries) (hnd : (F.tables m (l + 2) p).Nodup)
    (hp : PageAligned p) (hi : i < F.entries)
    (hq : F.child (loadWord m (p + 8 * i)) = some q) (hm : EqOff S m m')
    (hS : F.Confined m S (l + 1) p q) :
    F.leafAt m' idx (l + 1) p
      = if idx (l + 1) = i then F.leafAt m' idx l q else F.leafAt m idx (l + 1) p := by
  rw [leafAt_succ, leafAt_succ, Confined.loadWord_eq hnd hp hi hq hm hS (hidx _)]
  split_ifs with heq
  · rw [heq, hq]
    rfl
  · cases hr : F.child (loadWord m (p + 8 * idx (l + 1))) with
    | none => rfl
    | some r =>
      apply leafAt_eqOff hidx hm (F.aligned _ _ hr)
      intro x hx
      refine Confined.notMem_other hnd hi hq hS (hidx (l + 1)) (Ne.symm heq) ?_
      rw [below_of_some hr]
      exact hx

/-- A leaf entry does not lie in a table above its own. -/
theorem pageOf_slot_ne {a : ℕ} (hidx : ∀ k, idx k < F.entries)
    (hnd : (F.tables m (l + 2) p).Nodup) (ha : F.slot m idx (l + 1) p = some a) :
    pageOf a ≠ p := by
  rw [slot_succ] at ha
  cases hc : F.child (loadWord m (p + 8 * idx (l + 1))) with
  | none => simp [hc] at ha
  | some q =>
    rw [hc] at ha
    obtain ⟨t, ht, htal, rfl⟩ := slot_mem hidx (F.aligned _ _ hc) ha
    have hself := self_notMem_below hnd (hidx (l + 1))
    rw [below_of_some hc] at hself
    have hfits := (hidx 0).trans_le F.fits
    rw [pageOf_add htal (by omega)]
    rintro rfl
    exact hself ht

/-! ### Gaining empty tables -/

/-- From `m` to `m'` the table `p` of level `l` has gained the empty tables `new`. -/
structure Grown (F : EntryFormat) (m m' : Mem) (l p : ℕ) (new : Multiset ℕ) : Prop where
  /-- The pages are the old ones and the new tables. -/
  nodes_eq : ∀ leaf, F.nodes leaf m' (l + 1) p = F.nodes leaf m (l + 1) p + new
  /-- Only tables of the tree were written. -/
  eqOff : EqOff (F.tables m (l + 1) p + new) m m'
  /-- No leaf entry changed. -/
  leafAt_eq : ∀ idx, (∀ k, idx k < F.entries) → F.leafAt m' idx l p = F.leafAt m idx l p
  /-- Indices that led to a leaf entry still lead to it. -/
  slot_of : ∀ idx a, (∀ k, idx k < F.entries) → F.slot m idx l p = some a →
    F.slot m' idx l p = some a

namespace Grown

variable {new new' : Multiset ℕ}

theorem refl (m : Mem) (l p : ℕ) : F.Grown m m l p 0 where
  nodes_eq _ := (add_zero _).symm
  eqOff := EqOff.refl _ m
  leafAt_eq _ _ := rfl
  slot_of _ _ _ h := h

theorem tables_eq (h : F.Grown m m' l p new) :
    F.tables m' (l + 1) p = F.tables m (l + 1) p + new := h.nodes_eq _

theorem trans (h : F.Grown m m' l p new) (h' : F.Grown m' m'' l p new') :
    F.Grown m m'' l p (new + new') where
  nodes_eq leaf := by rw [h'.nodes_eq, h.nodes_eq, add_assoc]
  eqOff := by
    apply (h.eqOff.trans h'.eqOff).mono
    intro x hx
    rw [h.tables_eq] at hx
    simp only [Multiset.mem_add] at hx ⊢
    tauto
  leafAt_eq idx hidx := (h'.leafAt_eq idx hidx).trans (h.leafAt_eq idx hidx)
  slot_of idx a hidx ha := h'.slot_of idx a hidx (h.slot_of idx a hidx ha)

/-- A growth of a child is a growth of its parent. -/
theorem lift (h : F.Grown m m' l q new) (hnd : (F.tables m (l + 2) p).Nodup)
    (hp : PageAligned p) (hi : i < F.entries)
    (hq : F.child (loadWord m (p + 8 * i)) = some q)
    (hnew : ∀ x ∈ new, x ∉ F.tables m (l + 2) p) : F.Grown m m' (l + 1) p new := by
  -- nothing outside the subtree at `q` was written
  have hconf : F.Confined m (F.tables m (l + 1) q + new) (l + 1) p q := by
    intro x hx hmem
    rcases Multiset.mem_add.mp hx with hx | hx
    · exact hx
    · exact absurd hmem (hnew x hx)
  refine ⟨fun leaf => ?_, ?_, fun idx hidx => ?_, fun idx a hidx ha => ?_⟩
  · have hsplit := nodes_descend leaf hnd hp hi hq h.eqOff hconf
    rw [h.nodes_eq, ← add_assoc, add_right_comm _ _ new] at hsplit
    exact add_right_cancel hsplit
  · apply h.eqOff.mono
    intro x hx
    rw [Multiset.mem_add] at hx ⊢
    exact hx.imp_left (tables_child_subset hi hq)
  · rw [leafAt_descend hidx hnd hp hi hq h.eqOff hconf]
    split_ifs with heq
    · rw [h.leafAt_eq idx hidx, leafAt_succ, heq, hq]
      rfl
    · rfl
  · rw [slot_descend hidx hnd hp hi hq h.eqOff hconf]
    split_ifs with heq
    · apply h.slot_of idx a hidx
      rwa [slot_succ, heq, hq] at ha
    · exact ha

/-- Where indices lead through a child that has grown. -/
theorem slot_lift (h : F.Grown m m' l q new) (hidx : ∀ k, idx k < F.entries)
    (hnd : (F.tables m (l + 2) p).Nodup) (hp : PageAligned p)
    (hq : F.child (loadWord m (p + 8 * idx (l + 1))) = some q)
    (hnew : ∀ x ∈ new, x ∉ F.tables m (l + 2) p) :
    F.slot m' idx (l + 1) p = F.slot m' idx l q := by
  have hconf : F.Confined m (F.tables m (l + 1) q + new) (l + 1) p q := by
    intro x hx hmem
    rcases Multiset.mem_add.mp hx with hx | hx
    · exact hx
    · exact absurd hmem (hnew x hx)
  rw [slot_descend hidx hnd hp (hidx (l + 1)) hq h.eqOff hconf, if_pos rfl]

end Grown

/-- Linking a cleared page at an entry without a child. -/
theorem grown_link (hnd : (F.tables m (l + 2) p).Nodup) (hp : PageAligned p)
    (hi : i < F.entries) (hnone : F.child (loadWord m (p + 8 * i)) = none)
    (hq : F.child e = some q) (hz : ∀ b < 4096, m (q + b) = 0)
    (hqp : q ∉ F.tables m (l + 2) p) :
    F.Grown m (storeWord m (p + 8 * i) e) (l + 1) p {q} := by
  set m' := storeWord m (p + 8 * i) e with hm'
  have hm : EqOff {p} m m' := eqOff_storeWord m hp (hi.trans_le F.fits) e
  have hne : q ≠ p := fun heq => hqp (heq ▸ self_mem_tables)
  have hentry : loadWord m' (p + 8 * i) = e := loadWord_storeWord m _ e
  have hother : ∀ j, i ≠ j → loadWord m' (p + 8 * j) = loadWord m (p + 8 * j) :=
    fun j hij => loadWord_storeWord_of_ne m p e hij
  have hz' : ∀ b < 4096, m' (q + b) = 0 := by
    intro b hb
    rw [hm.byte_eq (F.aligned _ _ hq) hb (by simpa using hne), hz b hb]
  -- the other children are not the table itself, which is the only page written
  have hkeep : ∀ j < F.entries, ∀ r, F.child (loadWord m (p + 8 * j)) = some r →
      ∀ x ∈ F.tables m (l + 1) r, x ∉ ({p} : Multiset ℕ) := by
    intro j hj r hr x hx
    rw [Multiset.mem_singleton]
    rintro rfl
    apply self_notMem_below hnd hj
    rw [below_of_some hr]
    exact hx
  have hbesides : ∀ leaf, F.besides leaf m' (l + 1) p i = F.besides leaf m (l + 1) p i := by
    intro leaf
    refine Finset.sum_congr rfl fun j hj => ?_
    rw [Finset.mem_erase, Finset.mem_range] at hj
    rw [hother j hj.1.symm]
    apply below_congr
    intro r hr
    exact nodes_eqOff hm (F.aligned _ _ hr) (hkeep j hj.2 r hr)
  refine ⟨fun leaf => ?_, ?_, fun idx hidx => ?_, fun idx a hidx ha => ?_⟩
  · rw [nodes_split m' (l + 1) p hi, nodes_split m (l + 1) p hi, hentry, hbesides,
      below_of_some hq, nodes_of_cleared hz', below_of_none hnone]
    abel
  · apply hm.mono
    intro x hx
    rw [Multiset.mem_singleton] at hx
    rw [hx, Multiset.mem_add]
    exact Or.inl self_mem_tables
  · rw [leafAt_succ, leafAt_succ]
    by_cases heq : idx (l + 1) = i
    · rw [heq, hentry, hq, hnone]
      exact leafAt_of_cleared hidx hz'
    · rw [hother _ (Ne.symm heq)]
      cases hr : F.child (loadWord m (p + 8 * idx (l + 1))) with
      | none => rfl
      | some r => exact leafAt_eqOff hidx hm (F.aligned _ _ hr) (hkeep _ (hidx _) r hr)
  · rw [slot_succ] at ha ⊢
    have hne' : i ≠ idx (l + 1) := by
      rintro rfl
      rw [hnone] at ha
      cases ha
    rw [hother _ hne']
    cases hr : F.child (loadWord m (p + 8 * idx (l + 1))) with
    | none => rw [hr] at ha; cases ha
    | some r =>
      rw [hr] at ha
      exact (slot_eqOff hidx hm (F.aligned _ _ hr) (hkeep _ (hidx _) r hr)).trans ha

/-- Linking a page that was cleared just before, outside the tree. -/
theorem grown_link_fresh (hnd : (F.tables m (l + 2) p).Nodup) (hp : PageAligned p)
    (hi : i < F.entries) (hnone : F.child (loadWord m (p + 8 * i)) = none)
    (hq : F.child e = some q) (hm : EqOff {q} m m') (hz : ∀ b < 4096, m' (q + b) = 0)
    (hqp : q ∉ F.tables m (l + 2) p) :
    F.Grown m (storeWord m' (p + 8 * i) e) (l + 1) p {q} := by
  have hoff : ∀ x ∈ F.tables m (l + 2) p, x ∉ ({q} : Multiset ℕ) := by
    intro x hx
    rw [Multiset.mem_singleton]
    rintro rfl
    exact hqp hx
  have htables : F.tables m' (l + 2) p = F.tables m (l + 2) p := tables_eqOff hm hp hoff
  have hentry := hm.loadWord_eq hp (hi.trans_le F.fits) (hoff p self_mem_tables)
  have hlink := grown_link (e := e) (htables.symm ▸ hnd) hp hi (hentry.symm ▸ hnone) hq hz
    (htables.symm ▸ hqp)
  refine ⟨fun leaf => ?_, ?_, fun idx hidx => ?_, fun idx a hidx ha => ?_⟩
  · rw [hlink.nodes_eq, nodes_eqOff hm hp hoff]
  · apply (hm.trans hlink.eqOff).mono
    intro x hx
    rw [htables] at hx
    simp only [Multiset.mem_add] at hx ⊢
    tauto
  · rw [hlink.leafAt_eq idx hidx, leafAt_eqOff hidx hm hp hoff]
  · apply hlink.slot_of idx a hidx
    rwa [slot_eqOff hidx hm hp hoff]

/-! ### Replacing a leaf entry -/

/-- Two ways to one leaf entry use the same indices. -/
theorem slot_inj {a : ℕ} (hidx : ∀ k, idx k < F.entries) (hidx' : ∀ k, idx' k < F.entries)
    (hnd : (F.tables m (l + 1) p).Nodup) (hp : PageAligned p)
    (ha : F.slot m idx l p = some a) (ha' : F.slot m idx' l p = some a) :
    ∀ k ≤ l, idx k = idx' k := by
  induction l generalizing p with
  | zero =>
    rw [slot_zero] at ha ha'
    have h0 := (Option.some.inj ha).trans (Option.some.inj ha').symm
    intro k hk
    obtain rfl : k = 0 := by omega
    omega
  | succ l ih =>
    rw [slot_succ] at ha ha'
    cases hq : F.child (loadWord m (p + 8 * idx (l + 1))) with
    | none => rw [hq] at ha; cases ha
    | some q =>
      cases hq' : F.child (loadWord m (p + 8 * idx' (l + 1))) with
      | none => rw [hq'] at ha'; cases ha'
      | some q' =>
        rw [hq] at ha
        rw [hq'] at ha'
        have htop : idx (l + 1) = idx' (l + 1) := by
          by_contra hne
          -- the table of the slot would be below two different entries
          obtain ⟨t, ht, htal, hat⟩ := slot_mem hidx (F.aligned _ _ hq) ha
          obtain ⟨t', ht', htal', hat'⟩ := slot_mem hidx' (F.aligned _ _ hq') ha'
          have hpage : t = t' := by
            have h1 := (hidx 0).trans_le F.fits
            have h2 := (hidx' 0).trans_le F.fits
            rw [PageAligned] at htal htal'
            omega
          subst hpage
          refine notMem_below_of_ne hnd (hidx (l + 1)) (hidx' (l + 1)) hne ?_ ?_ (x := t)
          · rwa [below_of_some hq]
          · rwa [below_of_some hq']
        rw [← htop, hq] at hq'
        obtain rfl := Option.some.inj hq'
        intro k hk
        rcases Nat.lt_or_eq_of_le hk with hlt | rfl
        · exact ih (nodup_tables_child hnd (hidx _) hq) (F.aligned _ _ hq) ha ha' k (by omega)
        · exact htop

/-- A frame found counts as a page below the entry of the top table. -/
theorem frame_mem_below {x : ℕ} (hidx : ∀ k, idx k < F.entries)
    (hq : F.frameAt m idx l p = some q) (hx : x ∈ leaf q) :
    x ∈ F.below leaf m l (loadWord m (p + 8 * idx l)) := by
  cases l with
  | zero =>
    rw [frameAt_of_slot (slot_zero m idx p)] at hq
    rw [below_of_some hq, nodes_zero]
    exact hx
  | succ l =>
    rw [frameAt, leafAt_succ] at hq
    cases hc : F.child (loadWord m (p + 8 * idx (l + 1))) with
    | none =>
      rw [hc] at hq
      cases hq
    | some r =>
      rw [hc] at hq
      rw [below_of_some hc]
      exact Multiset.mem_of_le ((Multiset.le_add_left _ _).trans (tables_add_leaf_le hidx hq)) hx

/-- A frame is not below two different entries of a table in which no page is reached twice. -/
theorem index_eq_of_frameAt {x : ℕ} (hidx : ∀ k, idx k < F.entries)
    (hidx' : ∀ k, idx' k < F.entries) (hnd : (F.nodes leaf m (l + 1) p).Nodup)
    (hq : F.frameAt m idx l p = some q) (hq' : F.frameAt m idx' l p = some q) (hx : x ∈ leaf q) :
    idx l = idx' l := by
  by_contra hne
  exact notMem_below_of_ne hnd (hidx l) (hidx' l) hne (frame_mem_below hidx hq hx)
    (frame_mem_below hidx' hq' hx)

/-- Where no page is reached twice, two ways to one frame use the same indices. -/
theorem frameAt_inj {x : ℕ} (hidx : ∀ k, idx k < F.entries) (hidx' : ∀ k, idx' k < F.entries)
    (hnd : (F.nodes leaf m (l + 1) p).Nodup) (hq : F.frameAt m idx l p = some q)
    (hq' : F.frameAt m idx' l p = some q) (hx : x ∈ leaf q) : ∀ k ≤ l, idx k = idx' k := by
  -- both ways leave the top table by the same entry
  have htop := index_eq_of_frameAt hidx hidx' hnd hq hq' hx
  induction l generalizing p with
  | zero =>
    intro k hk
    obtain rfl : k = 0 := by omega
    exact htop
  | succ l ih =>
    rw [frameAt, leafAt_succ] at hq hq'
    rw [← htop] at hq'
    cases hc : F.child (loadWord m (p + 8 * idx (l + 1))) with
    | none =>
      rw [hc] at hq
      cases hq
    | some r =>
      rw [hc] at hq hq'
      have hnd' : (F.nodes leaf m (l + 1) r).Nodup := by
        have hbelow := nodup_below hnd (hidx (l + 1))
        rwa [below_of_some hc] at hbelow
      intro k hk
      rcases Nat.lt_or_eq_of_le hk with hlt | rfl
      · exact ih hnd' hq hq' (index_eq_of_frameAt hidx hidx' hnd' hq hq' hx) k (by omega)
      · exact htop

section StoreLeaf

variable {a : ℕ} (hidx : ∀ k, idx k < F.entries) (hnd : (F.tables m (l + 1) p).Nodup)
  (hp : PageAligned p) (ha : F.slot m idx l p = some a) (e : Word)

include hidx hp ha

/-- The store into a leaf entry touches a table of the tree. -/
theorem eqOff_storeLeaf : EqOff (F.tables m (l + 1) p) m (storeWord m a e) := by
  obtain ⟨t, ht, htal, rfl⟩ := slot_mem hidx hp ha
  apply (eqOff_storeWord m htal ((hidx 0).trans_le F.fits) e).mono
  intro x hx
  rwa [Multiset.mem_singleton.mp hx]

include hnd

/-- Replacing a leaf entry exchanges its frame. -/
theorem nodes_storeLeaf :
    F.nodes leaf (storeWord m a e) (l + 1) p + (F.child (loadWord m a)).elim 0 leaf
      = F.nodes leaf m (l + 1) p + (F.child e).elim 0 leaf := by
  induction l generalizing p with
  | zero =>
    rw [slot_zero] at ha
    obtain rfl : p + 8 * idx 0 = a := Option.some.inj ha
    -- the slot is in this table, and its other entries stay
    have hbesides : F.besides leaf (storeWord m (p + 8 * idx 0) e) 0 p (idx 0)
        = F.besides leaf m 0 p (idx 0) := by
      refine Finset.sum_congr rfl fun j hj => ?_
      rw [Finset.mem_erase] at hj
      rw [loadWord_storeWord_of_ne m p e hj.1.symm, below_zero, below_zero]
    rw [nodes_split _ 0 p (hidx 0), nodes_split m 0 p (hidx 0), loadWord_storeWord, hbesides]
    rw [below_zero, below_zero]
    abel
  | succ l ih =>
    rw [slot_succ] at ha
    cases hq : F.child (loadWord m (p + 8 * idx (l + 1))) with
    | none => rw [hq] at ha; cases ha
    | some q =>
      rw [hq] at ha
      have hqal := F.aligned _ _ hq
      have hconf : F.Confined m (F.tables m (l + 1) q) (l + 1) p q := fun _ hx _ => hx
      -- the slot is below this table, where one child changes
      have hchild := ih (nodup_tables_child hnd (hidx _) hq) hqal ha
      have hsplit := nodes_descend leaf hnd hp (hidx (l + 1)) hq
        (eqOff_storeLeaf hidx hqal ha e) hconf
      rw [← add_left_inj (F.nodes leaf m (l + 1) q), add_right_comm, hsplit, add_assoc,
        hchild]
      abel

/-- Replacing a leaf entry changes no way to a leaf entry. -/
theorem slot_storeLeaf (hidx' : ∀ k, idx' k < F.entries) :
    F.slot (storeWord m a e) idx' l p = F.slot m idx' l p := by
  induction l generalizing p with
  | zero => rw [slot_zero, slot_zero]
  | succ l ih =>
    rw [slot_succ] at ha
    cases hq : F.child (loadWord m (p + 8 * idx (l + 1))) with
    | none => rw [hq] at ha; cases ha
    | some q =>
      rw [hq] at ha
      have hqal := F.aligned _ _ hq
      have hconf : F.Confined m (F.tables m (l + 1) q) (l + 1) p q := fun _ hx _ => hx
      rw [slot_descend hidx' hnd hp (hidx (l + 1)) hq (eqOff_storeLeaf hidx hqal ha e) hconf,
        ih (nodup_tables_child hnd (hidx _) hq) hqal ha]
      split_ifs with heq
      · rw [slot_succ, heq, hq]
        rfl
      · rfl

/-- After replacing the leaf entry at `idx`, the same indices find the new entry and all
others what they found before. -/
theorem leafAt_storeLeaf (hidx' : ∀ k, idx' k < F.entries) :
    F.leafAt (storeWord m a e) idx' l p
      = if ∀ k ≤ l, idx' k = idx k then F.present e else F.leafAt m idx' l p := by
  rw [leafAt, slot_storeLeaf hidx hnd hp ha e hidx']
  split_ifs with hall
  · rw [slot_congr hall, ha, Option.elim_some, loadWord_storeWord]
  · rw [leafAt]
    cases ha' : F.slot m idx' l p with
    | none => rfl
    | some a' =>
      -- another leaf entry, so another aligned word
      have hne : a' ≠ a := by
        rintro rfl
        exact hall (slot_inj hidx' hidx hnd hp ha' ha)
      have h8 := slot_mod hidx hp ha
      have h8' := slot_mod hidx' hp ha'
      rw [Option.elim_some, Option.elim_some,
        loadWord_storeWord_of_disjoint m e (by omega : a + 8 ≤ a' ∨ a' + 8 ≤ a)]

end StoreLeaf

end EntryFormat

end RadixTable
