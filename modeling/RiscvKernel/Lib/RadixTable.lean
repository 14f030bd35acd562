import Mathlib.Algebra.BigOperators.Group.Finset.Basic
import Mathlib.Algebra.Order.BigOperators.Group.Finset
import Mathlib.Algebra.Order.Group.Multiset
import Mathlib.Tactic.Abel
import RiscvKernel.Lib.Memory

/-!
# Radix tables stored in pages

A radix table of height `h + 1` is a page of words. An entry either has no child or names the
page of a table of height `h`; at height `0` the child is a frame, which the table only points
to. How many entries a table has and how an entry encodes its child are parameters,
`EntryFormat`.

* `nodes leaf m h p`: the multiset of pages reached from `p`, where `leaf` says how a frame
  counts; `tables` counts the table pages only. A page reached twice counts twice, so that
  `Nodup` says that the table is a tree.
* `slot m idx l p`: the address of the leaf entry that the indices `idx` lead to in the table
  `p` of level `l` (height `l + 1`), if the entries above it have children.
* `leafAt m idx l p`: the leaf entry itself, when it has a frame.

A change of memory that stays off the tables of a tree keeps `nodes`, `slot` and `leafAt`
(`nodes_eqOff`, `slot_eqOff`, `leafAt_eqOff`). The changes inside a tree are linking an empty
table (`grown_link`) and replacing a leaf entry (`nodes_storeLeaf`, `leafAt_storeLeaf`).
-/

namespace RadixTable

open ByteMemory

/-- How many entries a table has and how an entry names its child. -/
structure EntryFormat where
  /-- The number of entries of a table. -/
  entries : ℕ
  /-- A table fits in its page. -/
  fits : entries ≤ 512
  /-- The page an entry points to, if it points to one. -/
  child : Word → Option ℕ
  /-- Entries point to whole pages. -/
  aligned : ∀ e q, child e = some q → PageAligned q
  /-- The entries of a cleared page point nowhere. -/
  zero : child 0#64 = none

namespace EntryFormat

variable (F : EntryFormat) (leaf : ℕ → Multiset ℕ)

/-- The pages reached from `p`, a table of height `h`, or a frame if `h = 0`. -/
def nodes (m : Mem) : ℕ → ℕ → Multiset ℕ
  | 0, p => leaf p
  | h + 1, p =>
    {p} + ∑ i ∈ Finset.range F.entries, (F.child (loadWord m (p + 8 * i))).elim 0 (nodes m h)

/-- The table pages reached from `p`. -/
def tables (m : Mem) (h p : ℕ) : Multiset ℕ := F.nodes (fun _ => 0) m h p

/-- The pages reached through one entry of a table of height `h + 1`. -/
def below (m : Mem) (h : ℕ) (e : Word) : Multiset ℕ := (F.child e).elim 0 (F.nodes leaf m h)

/-- The pages reached through the entries of `p` other than entry `i`. -/
def besides (m : Mem) (h p i : ℕ) : Multiset ℕ :=
  ∑ j ∈ (Finset.range F.entries).erase i, F.below leaf m h (loadWord m (p + 8 * j))

/-- The address of the leaf entry that `idx` leads to in the table `p` of level `l`. -/
def slot (m : Mem) (idx : ℕ → ℕ) : ℕ → ℕ → Option ℕ
  | 0, p => some (p + 8 * idx 0)
  | l + 1, p => (F.child (loadWord m (p + 8 * idx (l + 1)))).elim none (slot m idx l)

/-- An entry, if it has a child. -/
def present (e : Word) : Option Word := if (F.child e).isSome then some e else none

/-- The leaf entry that `idx` leads to in the table `p` of level `l`, if it has a frame. -/
def leafAt (m : Mem) (idx : ℕ → ℕ) (l p : ℕ) : Option Word :=
  (F.slot m idx l p).elim none fun a => F.present (loadWord m a)

/-- The frame that `idx` leads to in the table `p` of level `l`, if there is one. -/
def frameAt (m : Mem) (idx : ℕ → ℕ) (l p : ℕ) : Option ℕ := (F.leafAt m idx l p).bind F.child

variable {F leaf} {m m' m'' : Mem} {S : Multiset ℕ} {h l p q i : ℕ} {e : Word}
  {idx : ℕ → ℕ}

/-! ### Splitting a table at one entry -/

@[simp]
theorem nodes_zero (p : ℕ) : F.nodes leaf m 0 p = leaf p := rfl

theorem nodes_succ (m : Mem) (h p : ℕ) :
    F.nodes leaf m (h + 1) p
      = {p} + ∑ i ∈ Finset.range F.entries, F.below leaf m h (loadWord m (p + 8 * i)) := rfl

@[simp]
theorem below_of_none (he : F.child e = none) : F.below leaf m h e = 0 := by
  rw [below, he]
  rfl

@[simp]
theorem below_of_some (he : F.child e = some q) : F.below leaf m h e = F.nodes leaf m h q := by
  rw [below, he]
  rfl

/-- Below a leaf entry is its frame. -/
theorem below_zero (m : Mem) (e : Word) : F.below leaf m 0 e = (F.child e).elim 0 leaf := rfl

theorem slot_zero (m : Mem) (idx : ℕ → ℕ) (p : ℕ) : F.slot m idx 0 p = some (p + 8 * idx 0) := rfl

theorem slot_succ (m : Mem) (idx : ℕ → ℕ) (l p : ℕ) :
    F.slot m idx (l + 1) p
      = (F.child (loadWord m (p + 8 * idx (l + 1)))).elim none (F.slot m idx l) := rfl

/-- A table is its own page, what is below one entry, and what is below the others. -/
theorem nodes_split (m : Mem) (h p : ℕ) (hi : i < F.entries) :
    F.nodes leaf m (h + 1) p
      = {p} + F.below leaf m h (loadWord m (p + 8 * i)) + F.besides leaf m h p i := by
  rw [nodes_succ, ← Finset.add_sum_erase _ _ (Finset.mem_range.mpr hi), add_assoc]
  rfl

theorem tables_split (m : Mem) (h p : ℕ) (hi : i < F.entries) :
    F.tables m (h + 1) p
      = {p} + F.below (fun _ => 0) m h (loadWord m (p + 8 * i))
        + F.besides (fun _ => 0) m h p i :=
  nodes_split m h p hi

theorem self_mem_nodes : p ∈ F.nodes leaf m (h + 1) p := by
  rw [nodes_succ]
  simp

theorem self_mem_tables : p ∈ F.tables m (h + 1) p := self_mem_nodes

/-- What is below an entry belongs to the table. -/
theorem below_le_nodes (hi : i < F.entries) :
    F.below leaf m h (loadWord m (p + 8 * i)) ≤ F.nodes leaf m (h + 1) p := by
  rw [nodes_split m h p hi, add_right_comm]
  exact Multiset.le_add_left _ _

/-- Counting frames can only add pages. -/
theorem nodes_mono {leaf' : ℕ → Multiset ℕ} (hleaf : ∀ q, leaf q ≤ leaf' q) (m : Mem) (h p : ℕ) :
    F.nodes leaf m h p ≤ F.nodes leaf' m h p := by
  induction h generalizing p with
  | zero => exact hleaf p
  | succ h ih =>
    rw [nodes_succ, nodes_succ]
    gcongr with i
    cases hc : F.child (loadWord m (p + 8 * i)) with
    | none => simp [hc]
    | some q => simpa [hc] using ih q

theorem besides_mono {leaf' : ℕ → Multiset ℕ} (hleaf : ∀ q, leaf q ≤ leaf' q) (m : Mem)
    (h p i : ℕ) : F.besides leaf m h p i ≤ F.besides leaf' m h p i := by
  rw [besides, besides]
  gcongr with j
  cases hc : F.child (loadWord m (p + 8 * j)) with
  | none => rw [below_of_none hc, below_of_none hc]
  | some q =>
    rw [below_of_some hc, below_of_some hc]
    exact nodes_mono hleaf m h q

theorem tables_le_nodes (leaf : ℕ → Multiset ℕ) (m : Mem) (h p : ℕ) :
    F.tables m h p ≤ F.nodes leaf m h p :=
  nodes_mono (fun _ => Multiset.zero_le _) m h p

/-- A page reached is a table or counts as a frame. -/
theorem mem_tables_or_leaf {x : ℕ} (hx : x ∈ F.nodes leaf m h p) :
    x ∈ F.tables m h p ∨ ∃ q, x ∈ leaf q := by
  induction h generalizing p with
  | zero => exact Or.inr ⟨p, hx⟩
  | succ h ih =>
    rw [nodes_succ, Multiset.mem_add, Multiset.mem_sum] at hx
    rcases hx with hself | ⟨i, hi, hx⟩
    · rw [Multiset.mem_singleton] at hself
      rw [hself]
      exact Or.inl self_mem_tables
    · cases hc : F.child (loadWord m (p + 8 * i)) with
      | none =>
        rw [below_of_none hc] at hx
        exact absurd hx (Multiset.notMem_zero x)
      | some q =>
        rw [below_of_some hc] at hx
        refine (ih hx).imp_left fun hq =>
          Multiset.mem_of_le (below_le_nodes (Finset.mem_range.mp hi)) ?_
        rwa [below_of_some hc]

/-- A cleared page is a table with no children. -/
theorem nodes_of_cleared (hz : ∀ b < 4096, m (p + b) = 0) : F.nodes leaf m (h + 1) p = {p} := by
  rw [nodes_succ, Finset.sum_eq_zero, add_zero]
  intro i hi
  rw [Finset.mem_range] at hi
  have hword : loadWord m (p + 8 * i) = 0#64 := by
    apply loadWord_eq_zero
    intro j hj
    rw [Nat.add_assoc]
    have := F.fits
    exact hz _ (by omega)
  rw [hword, below_of_none F.zero]

/-- A cleared page leads to no leaf entry with a frame. -/
theorem leafAt_of_cleared (hidx : ∀ k, idx k < F.entries) (hz : ∀ b < 4096, m (p + b) = 0) :
    F.leafAt m idx l p = none := by
  have hword : ∀ k, loadWord m (p + 8 * idx k) = 0#64 := by
    intro k
    apply loadWord_eq_zero
    intro j hj
    have := (hidx k).trans_le F.fits
    rw [Nat.add_assoc]
    exact hz _ (by omega)
  cases l with
  | zero => simp [leafAt, slot, hword, present, F.zero]
  | succ l => simp [leafAt, slot, hword, F.zero]

/-! ### Changes off the tree -/

/-- What is below an entry depends only on the memory of the tables below it. -/
theorem below_congr (hc : ∀ q, F.child e = some q → F.nodes leaf m' h q = F.nodes leaf m h q) :
    F.below leaf m' h e = F.below leaf m h e := by
  cases he : F.child e with
  | none => rw [below_of_none he, below_of_none he]
  | some q => rw [below_of_some he, below_of_some he, hc q he]

/-- A change that touches no table of the tree keeps its pages. -/
theorem nodes_eqOff (hm : EqOff S m m') (hp : PageAligned p)
    (hS : ∀ x ∈ F.tables m h p, x ∉ S) : F.nodes leaf m' h p = F.nodes leaf m h p := by
  induction h generalizing p with
  | zero => rfl
  | succ h ih =>
    rw [nodes_succ, nodes_succ]
    refine congrArg _ (Finset.sum_congr rfl fun i hi => ?_)
    rw [Finset.mem_range] at hi
    rw [hm.loadWord_eq hp (hi.trans_le F.fits) (hS p self_mem_tables)]
    apply below_congr
    intro q hq
    apply ih (F.aligned _ _ hq)
    intro x hx
    apply hS
    refine Multiset.mem_of_le (below_le_nodes hi) ?_
    rw [below_of_some hq]
    exact hx

theorem tables_eqOff (hm : EqOff S m m') (hp : PageAligned p)
    (hS : ∀ x ∈ F.tables m h p, x ∉ S) : F.tables m' h p = F.tables m h p :=
  nodes_eqOff hm hp hS

/-- The tables below a valid entry belong to the table. -/
theorem tables_child_subset (hi : i < F.entries) (hq : F.child (loadWord m (p + 8 * i)) = some q)
    {x : ℕ} (hx : x ∈ F.tables m h q) : x ∈ F.tables m (h + 1) p := by
  refine Multiset.mem_of_le (below_le_nodes hi) ?_
  rw [below_of_some hq]
  exact hx

/-- A change that touches no table of the tree leads to the same leaf entry. -/
theorem slot_eqOff (hidx : ∀ k, idx k < F.entries) (hm : EqOff S m m') (hp : PageAligned p)
    (hS : ∀ x ∈ F.tables m (l + 1) p, x ∉ S) : F.slot m' idx l p = F.slot m idx l p := by
  induction l generalizing p with
  | zero => rfl
  | succ l ih =>
    rw [slot, slot, hm.loadWord_eq hp ((hidx _).trans_le F.fits) (hS p self_mem_tables)]
    cases hc : F.child (loadWord m (p + 8 * idx (l + 1))) with
    | none => rfl
    | some q =>
      apply ih (F.aligned _ _ hc)
      intro x hx
      exact hS x (tables_child_subset (hidx _) hc hx)

/-- The leaf entry found depends on the indices up to the table's level. -/
theorem slot_congr {idx' : ℕ → ℕ} (hall : ∀ k ≤ l, idx' k = idx k) :
    F.slot m idx' l p = F.slot m idx l p := by
  induction l generalizing p with
  | zero => rw [slot, slot, hall 0 le_rfl]
  | succ l ih =>
    rw [slot, slot, hall (l + 1) le_rfl]
    cases F.child (loadWord m (p + 8 * idx (l + 1))) with
    | none => rfl
    | some q => exact ih fun k hk => hall k (by omega)

theorem leafAt_congr {idx' : ℕ → ℕ} (hall : ∀ k ≤ l, idx' k = idx k) :
    F.leafAt m idx' l p = F.leafAt m idx l p := by
  rw [leafAt, leafAt, slot_congr hall]

/-- Whether there is a leaf entry depends on the indices above level `0`. -/
theorem slot_eq_none_congr {idx' : ℕ → ℕ} (hall : ∀ k, 1 ≤ k → k ≤ l → idx' k = idx k) :
    F.slot m idx' l p = none ↔ F.slot m idx l p = none := by
  induction l generalizing p with
  | zero => simp [slot]
  | succ l ih =>
    rw [slot, slot, hall (l + 1) (by omega) le_rfl]
    cases F.child (loadWord m (p + 8 * idx (l + 1))) with
    | none => exact Iff.rfl
    | some q => exact ih fun k hk hkl => hall k hk (by omega)

/-- A frame found counts towards its table, besides the table pages. -/
theorem tables_add_leaf_le (hidx : ∀ k, idx k < F.entries) (hq : F.frameAt m idx l p = some q) :
    F.tables m (l + 1) p + leaf q ≤ F.nodes leaf m (l + 1) p := by
  induction l generalizing p with
  | zero =>
    have hc : F.child (loadWord m (p + 8 * idx 0)) = some q := by
      rw [frameAt, leafAt, slot, Option.elim_some, present] at hq
      cases hc : F.child (loadWord m (p + 8 * idx 0)) <;> simp_all
    rw [tables_split m 0 p (hidx 0), nodes_split m 0 p (hidx 0), below_of_some hc,
      below_of_some hc, nodes_zero, nodes_zero, add_zero, add_right_comm]
    gcongr
    exact besides_mono (fun _ => Multiset.zero_le _) m 0 p (idx 0)
  | succ l ih =>
    rw [frameAt, leafAt, slot] at hq
    cases hc : F.child (loadWord m (p + 8 * idx (l + 1))) with
    | none => simp [hc] at hq
    | some r =>
      rw [hc] at hq
      rw [tables_split m (l + 1) p (hidx (l + 1)), nodes_split m (l + 1) p (hidx (l + 1)),
        below_of_some hc, below_of_some hc]
      -- the frame is counted below this entry, and leaves only add at the others
      calc {p} + F.tables m (l + 1) r + F.besides (fun _ => 0) m (l + 1) p (idx (l + 1)) + leaf q
          = {p} + (F.tables m (l + 1) r + leaf q)
              + F.besides (fun _ => 0) m (l + 1) p (idx (l + 1)) := by abel
        _ ≤ {p} + F.nodes leaf m (l + 1) r + F.besides leaf m (l + 1) p (idx (l + 1)) := by
          gcongr
          · exact ih hq
          · exact besides_mono (fun _ => Multiset.zero_le _) m (l + 1) p (idx (l + 1))

/-- A leaf entry found is stored at its slot and has a child. -/
theorem exists_slot_of_leafAt (he : F.leafAt m idx l p = some e) :
    ∃ a q, F.slot m idx l p = some a ∧ loadWord m a = e ∧ F.child e = some q := by
  rw [leafAt] at he
  cases ha : F.slot m idx l p with
  | none => simp [ha] at he
  | some a =>
    rw [ha, Option.elim_some, present] at he
    split_ifs at he with hc
    obtain rfl := Option.some.inj he
    obtain ⟨q, hq⟩ := Option.isSome_iff_exists.mp hc
    exact ⟨a, q, rfl, rfl, hq⟩

/-- How often a page counts depends only on how often a frame counts as that page. -/
theorem count_nodes_congr {leaf' : ℕ → Multiset ℕ} {x : ℕ}
    (hleaf : ∀ q, (leaf' q).count x = (leaf q).count x) (m : Mem) (h p : ℕ) :
    (F.nodes leaf' m h p).count x = (F.nodes leaf m h p).count x := by
  induction h generalizing p with
  | zero => exact hleaf p
  | succ h ih =>
    rw [nodes_succ, nodes_succ, Multiset.count_add, Multiset.count_add, Multiset.count_sum',
      Multiset.count_sum']
    congr 1
    refine Finset.sum_congr rfl fun i _ => ?_
    cases hc : F.child (loadWord m (p + 8 * i)) with
    | none => rw [below_of_none hc, below_of_none hc]
    | some q => rw [below_of_some hc, below_of_some hc, ih q]

/-- The leaf entry of a table above level `0` is that of the child its index selects. -/
theorem leafAt_succ (m : Mem) (idx : ℕ → ℕ) (l p : ℕ) :
    F.leafAt m idx (l + 1) p
      = (F.child (loadWord m (p + 8 * idx (l + 1)))).elim none (F.leafAt m idx l) := by
  rw [leafAt, slot]
  cases F.child (loadWord m (p + 8 * idx (l + 1))) with
  | none => rfl
  | some q => rfl

/-- The leaf entry lies in a table of the tree. -/
theorem slot_mem {a : ℕ} (hidx : ∀ k, idx k < F.entries) (hp : PageAligned p)
    (ha : F.slot m idx l p = some a) :
    ∃ t ∈ F.tables m (l + 1) p, PageAligned t ∧ a = t + 8 * idx 0 := by
  induction l generalizing p with
  | zero => exact ⟨p, self_mem_tables, hp, (Option.some.inj ha).symm⟩
  | succ l ih =>
    rw [slot] at ha
    cases hc : F.child (loadWord m (p + 8 * idx (l + 1))) with
    | none => simp [hc] at ha
    | some q =>
      rw [hc] at ha
      obtain ⟨t, ht, htal, rfl⟩ := ih (F.aligned _ _ hc) ha
      exact ⟨t, tables_child_subset (hidx _) hc ht, htal, rfl⟩

/-- The frame found is the one the leaf entry names. -/
theorem frameAt_of_slot {a : ℕ} (ha : F.slot m idx l p = some a) :
    F.frameAt m idx l p = F.child (loadWord m a) := by
  rw [frameAt, leafAt, ha, Option.elim_some, present]
  cases hc : F.child (loadWord m a) with
  | none => rfl
  | some q => exact hc

/-- Leaf entries are aligned words. -/
theorem slot_mod (hidx : ∀ k, idx k < F.entries) {a : ℕ} (hp : PageAligned p)
    (ha : F.slot m idx l p = some a) : a % 8 = 0 := by
  obtain ⟨t, -, ht, rfl⟩ := slot_mem hidx hp ha
  rw [PageAligned] at ht
  omega

/-- A change that touches no table of the tree keeps every leaf entry. -/
theorem leafAt_eqOff (hidx : ∀ k, idx k < F.entries) (hm : EqOff S m m') (hp : PageAligned p)
    (hS : ∀ x ∈ F.tables m (l + 1) p, x ∉ S) : F.leafAt m' idx l p = F.leafAt m idx l p := by
  rw [leafAt, leafAt, slot_eqOff hidx hm hp hS]
  cases ha : F.slot m idx l p with
  | none => rfl
  | some a =>
    obtain ⟨t, ht, htal, rfl⟩ := slot_mem hidx hp ha
    simp only [Option.elim_some]
    rw [hm.loadWord_eq htal ((hidx 0).trans_le F.fits) (hS t ht)]

-- trees are taken apart by the lemmas above only
attribute [irreducible] nodes slot

end EntryFormat

end RadixTable
