import Mathlib.Algebra.BigOperators.Intervals
import RiscvKernel.Lib.Outcome
import RiscvKernel.Lib.RadixUpdate

/-!
# Loops over the entries of a radix table

Rules for the two programs that walk a whole tree, stated for any state `σ` with a memory
`mem s` and a list of free pages `Free s l`.

`SameTree tag m m' h p p'`: the table `p` in `m` and the table `p'` in `m'` have children at
the same entries, with the same tags on the way and the same bytes in the frames.

`copyEntries` is the loop rule for a program that copies a table entry by entry into a cleared
page, taking every page it needs from the front of the free list: if each turn copies its entry
(`EntryCopied`), then the loop copies the table, uses exactly as many pages as there are below
the source, and hangs only if the list has fewer.

`freeEntries` is the loop rule for a program that gives back what is below each entry in turn:
no turn disturbs the entries that are still to be read.
-/

namespace RadixTable

open ByteMemory

namespace EntryFormat

variable (F : EntryFormat) (tag : Word → Word)

/-- Every page reached from `p`, frames included. -/
def pages (m : Mem) (h p : ℕ) : Multiset ℕ := F.nodes (fun q => {q}) m h p

/-- Every page below an entry, frames included. -/
def pagesBelow (m : Mem) (h : ℕ) (e : Word) : Multiset ℕ := F.below (fun q => {q}) m h e

/-- The same children, tags and frame contents below `p` in `m` and below `p'` in `m'`. -/
def SameTree (m m' : Mem) : ℕ → ℕ → ℕ → Prop
  | 0, p, p' => ∀ b < 4096, m' (p' + b) = m (p + b)
  | h + 1, p, p' => ∀ i < F.entries,
    (F.child (loadWord m (p + 8 * i)) = none ∧ F.child (loadWord m' (p' + 8 * i)) = none) ∨
    ∃ q q', F.child (loadWord m (p + 8 * i)) = some q ∧
      F.child (loadWord m' (p' + 8 * i)) = some q' ∧
      tag (loadWord m' (p' + 8 * i)) = tag (loadWord m (p + 8 * i)) ∧ SameTree m m' h q q'

/-- Two entries that both have no child, or equally tagged children with the same trees. -/
def SameEntry (m m' : Mem) (h : ℕ) (e e' : Word) : Prop :=
  (F.child e = none ∧ F.child e' = none) ∨
    ∃ q q', F.child e = some q ∧ F.child e' = some q' ∧ tag e' = tag e ∧
      F.SameTree tag m m' h q q'

variable {F tag} {m m' m'' m₀ : Mem} {S : Multiset ℕ} {h l p p' q i : ℕ} {e e' : Word}
  {idx : ℕ → ℕ}

theorem sameTree_zero :
    F.SameTree tag m m' 0 p p' ↔ ∀ b < 4096, m' (p' + b) = m (p + b) := Iff.rfl

theorem pages_succ (m : Mem) (h p : ℕ) :
    F.pages m (h + 1) p
      = {p} + ∑ i ∈ Finset.range F.entries, F.pagesBelow m h (loadWord m (p + 8 * i)) :=
  nodes_succ m h p

@[simp]
theorem pages_zero (m : Mem) (p : ℕ) : F.pages m 0 p = {p} := nodes_zero p

theorem pagesBelow_of_none (he : F.child e = none) : F.pagesBelow m h e = 0 := below_of_none he

theorem pagesBelow_of_some (he : F.child e = some q) : F.pagesBelow m h e = F.pages m h q :=
  below_of_some he

theorem pagesBelow_le (hi : i < F.entries) :
    F.pagesBelow m h (loadWord m (p + 8 * i)) ≤ F.pages m (h + 1) p := below_le_nodes hi

theorem tables_le_pages (m : Mem) (h p : ℕ) : F.tables m h p ≤ F.pages m h p :=
  tables_le_nodes _ m h p

theorem pages_eqOff (hm : EqOff S m m') (hp : PageAligned p)
    (hS : ∀ x ∈ F.pages m h p, x ∉ S) : F.pages m' h p = F.pages m h p :=
  nodes_eqOff hm hp fun x hx => hS x (Multiset.mem_of_le (tables_le_pages m h p) hx)

theorem pagesBelow_eqOff (hm : EqOff S m m') (hS : ∀ x ∈ F.pagesBelow m h e, x ∉ S) :
    F.pagesBelow m' h e = F.pagesBelow m h e := by
  apply below_congr
  intro q hq
  apply pages_eqOff hm (F.aligned _ _ hq)
  intro x hx
  apply hS
  rwa [pagesBelow_of_some hq]

/-- The pages reached from a page are whole pages. -/
theorem aligned_of_mem_pages (hp : PageAligned p) {x : ℕ} (hx : x ∈ F.pages m h p) :
    PageAligned x := by
  induction h generalizing p with
  | zero =>
    rw [pages_zero, Multiset.mem_singleton] at hx
    rwa [hx]
  | succ h ih =>
    rw [pages_succ, Multiset.mem_add, Multiset.mem_singleton, Multiset.mem_sum] at hx
    rcases hx with rfl | ⟨i, -, hx⟩
    · exact hp
    · cases hc : F.child (loadWord m (p + 8 * i)) with
      | none =>
        rw [pagesBelow_of_none hc] at hx
        exact absurd hx (Multiset.notMem_zero x)
      | some q =>
        rw [pagesBelow_of_some hc] at hx
        exact ih (F.aligned _ _ hc) hx

/-! ### The same tree in two memories -/

namespace SameTree

theorem symm (hs : F.SameTree tag m m' h p p') : F.SameTree tag m' m h p' p := by
  induction h generalizing p p' with
  | zero => exact fun b hb => (hs b hb).symm
  | succ h ih =>
    intro i hi
    rcases hs i hi with ⟨h1, h2⟩ | ⟨q, q', hq, hq', htag, hsub⟩
    · exact Or.inl ⟨h2, h1⟩
    · exact Or.inr ⟨q', q, hq', hq, htag.symm, ih hsub⟩

/-- A change off the second tree keeps it the same. -/
theorem congr_right (hs : F.SameTree tag m m' h p p') (hm : EqOff S m' m'')
    (hp : PageAligned p') (hS : ∀ x ∈ F.pages m' h p', x ∉ S) :
    F.SameTree tag m m'' h p p' := by
  induction h generalizing p p' with
  | zero =>
    intro b hb
    rw [hm.byte_eq hp hb (hS p' (by simp)), hs b hb]
  | succ h ih =>
    intro i hi
    rw [hm.loadWord_eq hp (hi.trans_le F.fits) (hS p' self_mem_nodes)]
    refine (hs i hi).imp_right ?_
    rintro ⟨q, q', hq, hq', htag, hsub⟩
    refine ⟨q, q', hq, hq', htag, ih hsub (F.aligned _ _ hq') ?_⟩
    intro x hx
    apply hS
    refine Multiset.mem_of_le (pagesBelow_le hi) ?_
    rwa [pagesBelow_of_some hq']

/-- A change off the first tree keeps it the same. -/
theorem congr_left (hs : F.SameTree tag m m' h p p') (hm : EqOff S m m'')
    (hp : PageAligned p) (hS : ∀ x ∈ F.pages m h p, x ∉ S) :
    F.SameTree tag m'' m' h p p' :=
  (hs.symm.congr_right hm hp hS).symm

/-- The same tree has as many pages. -/
theorem card_pages (hs : F.SameTree tag m m' h p p') :
    (F.pages m' h p').card = (F.pages m h p).card := by
  induction h generalizing p p' with
  | zero => simp
  | succ h ih =>
    rw [pages_succ, pages_succ, Multiset.card_add, Multiset.card_add, Multiset.card_sum,
      Multiset.card_sum, Multiset.card_singleton, Multiset.card_singleton]
    refine congrArg _ (Finset.sum_congr rfl fun i hi => ?_)
    rcases hs i (Finset.mem_range.mp hi) with ⟨h1, h2⟩ | ⟨q, q', hq, hq', -, hsub⟩
    · rw [pagesBelow_of_none h1, pagesBelow_of_none h2]
    · rw [pagesBelow_of_some hq, pagesBelow_of_some hq', ih hsub]

/-- The same indices lead to frames with the same bytes, through equally tagged entries. -/
theorem leafAt (hs : F.SameTree tag m m' (l + 1) p p') (hidx : ∀ k, idx k < F.entries) :
    (F.leafAt m idx l p = none ∧ F.leafAt m' idx l p' = none) ∨
      ∃ e e' q q', F.leafAt m idx l p = some e ∧ F.leafAt m' idx l p' = some e' ∧
        F.child e = some q ∧ F.child e' = some q' ∧ tag e' = tag e ∧
        ∀ b < 4096, m' (q' + b) = m (q + b) := by
  induction l generalizing p p' with
  | zero =>
    rcases hs (idx 0) (hidx 0) with ⟨h1, h2⟩ | ⟨q, q', hq, hq', htag, hsub⟩
    · left
      simp [EntryFormat.leafAt, slot, present, h1, h2]
    · right
      refine ⟨_, _, q, q', ?_, ?_, hq, hq', htag, hsub⟩
      · simp [EntryFormat.leafAt, slot, present, hq]
      · simp [EntryFormat.leafAt, slot, present, hq']
  | succ l ih =>
    rw [leafAt_succ, leafAt_succ]
    rcases hs (idx (l + 1)) (hidx (l + 1)) with ⟨h1, h2⟩ | ⟨q, q', hq, hq', -, hsub⟩
    · left
      rw [h1, h2]
      exact ⟨rfl, rfl⟩
    · rw [hq, hq']
      exact ih hsub

end SameTree

theorem SameEntry.card_pagesBelow (hs : F.SameEntry tag m m' h e e') :
    (F.pagesBelow m' h e').card = (F.pagesBelow m h e).card := by
  rcases hs with ⟨h1, h2⟩ | ⟨q, q', hq, hq', -, hsub⟩
  · rw [pagesBelow_of_none h1, pagesBelow_of_none h2]
  · rw [pagesBelow_of_some hq, pagesBelow_of_some hq', hsub.card_pages]

theorem SameEntry.congr_right (hs : F.SameEntry tag m m' h e e') (hm : EqOff S m' m'')
    (hS : ∀ x ∈ F.pagesBelow m' h e', x ∉ S) : F.SameEntry tag m m'' h e e' := by
  refine hs.imp_right ?_
  rintro ⟨q, q', hq, hq', htag, hsub⟩
  rw [pagesBelow_of_some hq'] at hS
  exact ⟨q, q', hq, hq', htag, hsub.congr_right hm (F.aligned _ _ hq') hS⟩

theorem SameEntry.congr_left (hs : F.SameEntry tag m m' h e e') (hm : EqOff S m m'')
    (hS : ∀ x ∈ F.pagesBelow m h e, x ∉ S) : F.SameEntry tag m'' m' h e e' := by
  refine hs.imp_right ?_
  rintro ⟨q, q', hq, hq', htag, hsub⟩
  rw [pagesBelow_of_some hq] at hS
  exact ⟨q, q', hq, hq', htag, hsub.congr_left hm (F.aligned _ _ hq) hS⟩

/-! ### Copying entry by entry -/

variable (F tag) in
/-- From `m` to `m'`, entry `i` of the table `src` has been copied to the table `dst`, into
the pages `new`. -/
structure EntryCopied (m m' : Mem) (h src dst i : ℕ) (new : Multiset ℕ) : Prop where
  /-- Only the destination and the new pages were written. -/
  eqOff : EqOff ({dst} + new) m m'
  /-- The other entries of the destination are as they were. -/
  others : ∀ j < F.entries, j ≠ i → loadWord m' (dst + 8 * j) = loadWord m (dst + 8 * j)
  /-- The pages below the copied entry are the new ones. -/
  below : F.pagesBelow m' h (loadWord m' (dst + 8 * i)) = new
  /-- The copy is the same as the original. -/
  same : F.SameEntry tag m m' h (loadWord m (src + 8 * i)) (loadWord m' (dst + 8 * i))

variable (F tag) in
/-- From `m` to `m'`, the table `src` has been copied to the cleared page `dst`, into the pages
`new`. -/
structure TableCopied (m m' : Mem) (h src dst : ℕ) (new : Multiset ℕ) : Prop where
  /-- Only the destination and the new pages were written. -/
  eqOff : EqOff ({dst} + new) m m'
  /-- The pages of the copy are the destination and the new ones. -/
  pages : F.pages m' (h + 1) dst = {dst} + new
  /-- The copy is the same as the original. -/
  same : F.SameTree tag m m' (h + 1) src dst

end EntryFormat

open EntryFormat

section CopyEntries

variable {F : EntryFormat} {tag : Word → Word} {σ : Type*} (mem : σ → Mem)
  (Free : σ → List ℕ → Prop) (body : σ → ℕ → Option σ) (h src dst : ℕ) (s₀ : σ) (free₀ : List ℕ)

/-- What the copying loop has done when it reaches entry `i`. -/
structure CopyProgress (F : EntryFormat) (tag : Word → Word) (i : ℕ) (s : σ) (new free : List ℕ) :
    Prop where
  free_eq : free₀ = new ++ free
  free : Free s free
  eqOff : EqOff ({dst} + ↑new) (mem s₀) (mem s)
  same : ∀ j < i, F.SameEntry tag (mem s₀) (mem s) h (loadWord (mem s₀) (src + 8 * j))
    (loadWord (mem s) (dst + 8 * j))
  below : ∑ j ∈ Finset.range i, F.pagesBelow (mem s) h (loadWord (mem s) (dst + 8 * j)) = ↑new
  cleared : ∀ j < F.entries, i ≤ j → loadWord (mem s) (dst + 8 * j) = 0#64
  length : new.length
    = ∑ j ∈ Finset.range i, (F.pagesBelow (mem s₀) h (loadWord (mem s₀) (src + 8 * j))).card

variable {mem Free body h src dst s₀ free₀} {i : ℕ} {s s' : σ} {new free new' free' : List ℕ}

section

variable (hp : CopyProgress mem Free h src dst s₀ free₀ F tag i s new free)
  (hsrc : PageAligned src)
  (hnd : ({dst} + (free₀ : Multiset ℕ)).Nodup)
  (hdisj : ∀ x ∈ F.pages (mem s₀) (h + 1) src, x ∉ {dst} + (free₀ : Multiset ℕ))

include hp hdisj

theorem CopyProgress.src_notMem_new {x : ℕ} (hx : x ∈ F.pages (mem s₀) (h + 1) src) :
    x ∉ ({dst} + (new : Multiset ℕ)) := by
  intro hmem
  apply hdisj x hx
  rw [hp.free_eq]
  simp only [Multiset.mem_add, Multiset.mem_coe, List.mem_append] at hmem ⊢
  tauto

include hsrc

/-- The loop has not touched the source. -/
theorem CopyProgress.src_pages :
    F.pages (mem s) (h + 1) src = F.pages (mem s₀) (h + 1) src :=
  pages_eqOff hp.eqOff hsrc fun _ hx => hp.src_notMem_new hdisj hx

theorem CopyProgress.src_entry {j : ℕ} (hj : j < F.entries) :
    loadWord (mem s) (src + 8 * j) = loadWord (mem s₀) (src + 8 * j) :=
  hp.eqOff.loadWord_eq hsrc (hj.trans_le F.fits) (hp.src_notMem_new hdisj self_mem_nodes)

theorem CopyProgress.src_below {j : ℕ} (hj : j < F.entries) :
    F.pagesBelow (mem s) h (loadWord (mem s) (src + 8 * j))
      = F.pagesBelow (mem s₀) h (loadWord (mem s₀) (src + 8 * j)) := by
  rw [hp.src_entry hsrc hdisj hj]
  apply pagesBelow_eqOff hp.eqOff
  intro x hx
  exact hp.src_notMem_new hdisj (Multiset.mem_of_le (pagesBelow_le hj) hx)

omit hsrc hdisj

include hnd

/-- The pages that are still free and the destination are apart. -/
theorem CopyProgress.nodup_rest : ({dst} + (free : Multiset ℕ)).Nodup := by
  apply Multiset.nodup_of_le _ hnd
  gcongr
  rw [hp.free_eq, ← Multiset.coe_add]
  exact Multiset.le_add_left _ _

/-- The pages taken so far and those still free are apart from each other and from the
destination. -/
theorem CopyProgress.new_notMem {x : ℕ} (hx : x ∈ new) :
    x ∉ ({dst} + (free : Multiset ℕ)) := by
  rw [hp.free_eq, ← Multiset.coe_add, add_left_comm, Multiset.nodup_add] at hnd
  exact Multiset.disjoint_left.mp hnd.2.2 (by simpa using hx)

include hdisj

/-- One more entry is copied. -/
theorem CopyProgress.step (hi : i < F.entries) (hsrc : PageAligned src)
    (hfree : free = new' ++ free') (hfree' : Free s' free')
    (hentry : F.EntryCopied tag (mem s) (mem s') h src dst i ↑new') :
    CopyProgress mem Free h src dst s₀ free₀ F tag (i + 1) s' (new ++ new') free' := by
  -- what earlier turns built is apart from what this turn writes
  have hold : ∀ j < i, ∀ x ∈ F.pagesBelow (mem s) h (loadWord (mem s) (dst + 8 * j)),
      x ∉ ({dst} + (new' : Multiset ℕ)) := by
    intro j hj x hx hmem
    have hnew : x ∈ (new : Multiset ℕ) := by
      rw [← hp.below, Multiset.mem_sum]
      exact ⟨j, Finset.mem_range.mpr hj, hx⟩
    apply hp.new_notMem hnd (by simpa using hnew)
    rw [hfree]
    simp only [Multiset.mem_add, Multiset.mem_coe, List.mem_append] at hmem ⊢
    tauto
  have hsrcS : ∀ x ∈ F.pagesBelow (mem s) h (loadWord (mem s) (src + 8 * i)),
      x ∉ ({dst} + (new : Multiset ℕ)) := by
    intro x hx
    rw [hp.src_below hsrc hdisj hi] at hx
    exact hp.src_notMem_new hdisj (Multiset.mem_of_le (pagesBelow_le hi) hx)
  have hbelow : ∀ j < i, F.pagesBelow (mem s') h (loadWord (mem s') (dst + 8 * j))
      = F.pagesBelow (mem s) h (loadWord (mem s) (dst + 8 * j)) := by
    intro j hj
    rw [hentry.others j (by omega) (by omega)]
    exact pagesBelow_eqOff hentry.eqOff (hold j hj)
  constructor
  · rw [hp.free_eq, hfree, List.append_assoc]
  · exact hfree'
  · apply (hp.eqOff.trans hentry.eqOff).mono
    intro x hx
    simp only [← Multiset.coe_add, Multiset.mem_add] at hx ⊢
    tauto
  · intro j hj
    rcases Nat.lt_or_eq_of_le (Nat.le_of_lt_succ hj) with hlt | rfl
    · rw [hentry.others j (by omega) (by omega)]
      exact (hp.same j hlt).congr_right hentry.eqOff (hold j hlt)
    · rw [← hp.src_entry hsrc hdisj hi]
      exact hentry.same.congr_left hp.eqOff.symm hsrcS
  · rw [Finset.sum_range_succ, hentry.below,
      Finset.sum_congr rfl fun j hj => hbelow j (Finset.mem_range.mp hj), hp.below,
      Multiset.coe_add]
  · intro j hj hle
    rw [hentry.others j hj (by omega)]
    exact hp.cleared j hj (by omega)
  · have hcard := hentry.same.card_pagesBelow
    rw [hentry.below, hp.src_below hsrc hdisj hi, Multiset.coe_card] at hcard
    rw [List.length_append, hp.length, hcard, Finset.sum_range_succ]

end

variable (tag mem Free) in
/-- The loop rule for copying a table entry by entry. -/
theorem copyEntries (hfree : Free s₀ free₀) (hsrc : PageAligned src)
    (hnd : ({dst} + (free₀ : Multiset ℕ)).Nodup)
    (hdisj : ∀ x ∈ F.pages (mem s₀) (h + 1) src, x ∉ {dst} + (free₀ : Multiset ℕ))
    (hcleared : ∀ j < F.entries, loadWord (mem s₀) (dst + 8 * j) = 0#64)
    (hbody : ∀ i < F.entries, ∀ s free, Free s free → (∀ p ∈ free, p ∈ free₀) →
      EqOff ({dst} + ↑free₀) (mem s₀) (mem s) →
      ({dst} + (free : Multiset ℕ)).Nodup →
      (∀ x ∈ F.pages (mem s) (h + 1) src, x ∉ {dst} + (free : Multiset ℕ)) →
      loadWord (mem s) (dst + 8 * i) = 0#64 →
      Outcome (free.length < (F.pagesBelow (mem s) h (loadWord (mem s) (src + 8 * i))).card)
        (fun s' => ∃ new free', free = new ++ free' ∧ Free s' free' ∧
          F.EntryCopied tag (mem s) (mem s') h src dst i ↑new) (body s i)) :
    Outcome (free₀.length + 1 < (F.pages (mem s₀) (h + 1) src).card)
      (fun s' => ∃ new free', free₀ = new ++ free' ∧ Free s' free' ∧
        F.TableCopied tag (mem s₀) (mem s') h src dst ↑new)
      ((List.range F.entries).foldlM body s₀) := by
  have hloop := @Outcome.foldlM_range σ (free₀.length + 1 < (F.pages (mem s₀) (h + 1) src).card)
    body F.entries s₀
    (fun i s => ∃ new free, CopyProgress mem Free h src dst s₀ free₀ F tag i s new free)
    ⟨[], free₀, rfl, hfree, EqOff.refl _ _, by omega, rfl, fun j hj _ => hcleared j hj, rfl⟩ ?_
  · refine hloop.mono id ?_
    rintro s' ⟨new, free', hp⟩
    -- all entries are copied, so the pages taken are those below the source
    refine ⟨new, free', hp.free_eq, hp.free, hp.eqOff, ?_, hp.same⟩
    rw [pages_succ, hp.below]
  · rintro i hi s ⟨new, free, hp⟩
    -- what this turn may still take was free before the loop
    have hsub : ∀ p ∈ free, p ∈ free₀ := by
      intro p hmem
      rw [hp.free_eq]
      exact List.mem_append_right _ hmem
    have hapart : ∀ x ∈ F.pages (mem s) (h + 1) src, x ∉ {dst} + (free : Multiset ℕ) := by
      intro x hx hmem
      rw [hp.src_pages hsrc hdisj] at hx
      apply hdisj x hx
      rw [hp.free_eq, ← Multiset.coe_add]
      simp only [Multiset.mem_add] at hmem ⊢
      tauto
    have hoff : EqOff ({dst} + ↑free₀) (mem s₀) (mem s) := by
      apply hp.eqOff.mono
      intro x hx
      rw [hp.free_eq, ← Multiset.coe_add]
      simp only [Multiset.mem_add] at hx ⊢
      tauto
    refine (hbody i hi s free hp.free hsub hoff (hp.nodup_rest hnd) hapart
      (hp.cleared i hi le_rfl)).mono ?_ ?_
    · -- the pages used so far and those this turn needs are all below the source
      intro hshort
      rw [hp.src_below hsrc hdisj hi] at hshort
      rw [pages_succ, Multiset.card_add, Multiset.card_singleton, Multiset.card_sum, hp.free_eq,
        List.length_append, hp.length]
      have hle := Finset.sum_le_sum_of_subset (f := fun j =>
        (F.pagesBelow (mem s₀) h (loadWord (mem s₀) (src + 8 * j))).card)
        (Finset.range_mono (Nat.succ_le_of_lt hi))
      rw [Nat.succ_eq_add_one, Finset.sum_range_succ] at hle
      omega
    · rintro s' ⟨new', free', hfree', hFree', hentry⟩
      exact ⟨_, _, hp.step hnd hdisj hi hsrc hfree' hFree' hentry⟩

end CopyEntries

/-! ### Freeing entry by entry -/

/-- The loop rule for giving back what is below the entries of a table, one after the other. -/
theorem freeEntries {F : EntryFormat} {leaf : ℕ → Multiset ℕ} {σ : Type*} (mem : σ → Mem)
    (Free : σ → List ℕ → Prop) (body : σ → ℕ → σ) {h p : ℕ} {s₀ : σ} {free₀ : List ℕ}
    (hfree : Free s₀ free₀) (hp : PageAligned p)
    (hnd : ((free₀ : Multiset ℕ) + F.nodes leaf (mem s₀) (h + 1) p).Nodup)
    (hbody : ∀ i < F.entries, ∀ s free, Free s free → p ∉ free →
      (∀ x ∈ free, x ∈ free₀ ∨ x ∈ F.nodes leaf (mem s₀) (h + 1) p) →
      EqOff (F.nodes leaf (mem s₀) (h + 1) p) (mem s₀) (mem s) →
      loadWord (mem s) (p + 8 * i) = loadWord (mem s₀) (p + 8 * i) →
      F.below leaf (mem s) h (loadWord (mem s) (p + 8 * i))
        = F.below leaf (mem s₀) h (loadWord (mem s₀) (p + 8 * i)) →
      ((free : Multiset ℕ) + F.below leaf (mem s) h (loadWord (mem s) (p + 8 * i))).Nodup →
      ∃ free' : List ℕ, Free (body s i) free' ∧
        (free' : Multiset ℕ) = ↑free + F.below leaf (mem s) h (loadWord (mem s) (p + 8 * i)) ∧
        EqOff (F.below leaf (mem s) h (loadWord (mem s) (p + 8 * i))) (mem s)
          (mem (body s i))) :
    ∃ free' : List ℕ, Free ((List.range F.entries).foldl body s₀) free' ∧
      (free' : Multiset ℕ) + {p} = ↑free₀ + F.nodes leaf (mem s₀) (h + 1) p ∧
      EqOff (∑ i ∈ Finset.range F.entries, F.below leaf (mem s₀) h
        (loadWord (mem s₀) (p + 8 * i))) (mem s₀)
        (mem ((List.range F.entries).foldl body s₀)) := by
  set given : ℕ → Multiset ℕ := fun i =>
    ∑ j ∈ Finset.range i, F.below leaf (mem s₀) h (loadWord (mem s₀) (p + 8 * j)) with hgiven
  have hpages : F.nodes leaf (mem s₀) (h + 1) p = {p} + given F.entries := nodes_succ _ _ _
  have hloop := List.foldl_range_induction (n := F.entries) (f := body) (a := s₀)
    (fun i s => ∃ free : List ℕ, Free s free ∧ (free : Multiset ℕ) = ↑free₀ + given i ∧
      EqOff (given i) (mem s₀) (mem s)) ⟨free₀, hfree, (add_zero _).symm, EqOff.refl _ _⟩ ?_
  · obtain ⟨free', hF, heq, hoff⟩ := hloop
    refine ⟨free', hF, ?_, hoff⟩
    rw [heq, hpages]
    abel
  · rintro i hi s ⟨free, hF, heq, hoff⟩
    have hnext : given (i + 1)
        = given i + F.below leaf (mem s₀) h (loadWord (mem s₀) (p + 8 * i)) :=
      Finset.sum_range_succ _ _
    have hle : {p} + given (i + 1) ≤ F.nodes leaf (mem s₀) (h + 1) p := by
      rw [hpages]
      gcongr
      exact Finset.sum_le_sum_of_subset (Finset.range_mono (Nat.succ_le_of_lt hi))
    have hnd' : ((free₀ : Multiset ℕ) + ({p} + given (i + 1))).Nodup :=
      Multiset.nodup_of_le (by gcongr) hnd
    -- what was given back so far is neither the table nor below the next entry
    have hapart : ∀ x ∈ {p} + F.below leaf (mem s₀) h (loadWord (mem s₀) (p + 8 * i)),
        x ∉ given i := by
      have hsplit := (Multiset.nodup_add.mp hnd').2.1
      rw [hnext, add_comm (given i), ← add_assoc, Multiset.nodup_add] at hsplit
      exact fun x hx => Multiset.disjoint_left.mp hsplit.2.2 hx
    have hentry : loadWord (mem s) (p + 8 * i) = loadWord (mem s₀) (p + 8 * i) :=
      hoff.loadWord_eq hp (hi.trans_le F.fits) (hapart p (by simp))
    have hbelow : F.below leaf (mem s) h (loadWord (mem s) (p + 8 * i))
        = F.below leaf (mem s₀) h (loadWord (mem s₀) (p + 8 * i)) := by
      rw [hentry]
      apply below_congr
      intro q hq
      apply nodes_eqOff hoff (F.aligned _ _ hq)
      intro x hx
      apply hapart
      rw [below_of_some hq]
      exact Multiset.mem_add.mpr (Or.inr (Multiset.mem_of_le (tables_le_nodes _ _ _ _) hx))
    -- the pages given back so far are below the table, which is not one of them
    have hsub : ∀ x ∈ free, x ∈ free₀ ∨ x ∈ given i := by
      intro x hx
      have hmem : x ∈ (free : Multiset ℕ) := hx
      rwa [heq, Multiset.mem_add, Multiset.mem_coe] at hmem
    have hself : p ∉ free := by
      intro hmem
      rcases hsub p hmem with hfree₀ | hgiven'
      · rw [hpages, Multiset.nodup_add] at hnd
        exact Multiset.disjoint_left.mp hnd.2.2 hfree₀ (by simp)
      · exact hapart p (by simp) hgiven'
    obtain ⟨free', hF', heq', hoff'⟩ := hbody i hi s free hF hself
      (fun x hx => (hsub x hx).imp_right fun hx => by
        refine Multiset.mem_of_le ((Multiset.le_add_left _ _).trans hle) ?_
        rw [hnext]
        exact Multiset.mem_add.mpr (Or.inl hx))
      (hoff.mono fun x hx => Multiset.mem_of_le ((Multiset.le_add_left _ _).trans hle)
        (by rw [hnext]; exact Multiset.mem_add.mpr (Or.inl hx)))
      hentry hbelow
      (by
        rw [heq, hbelow, add_assoc, ← hnext]
        exact Multiset.nodup_of_le (by gcongr; exact Multiset.le_add_left _ _) hnd')
    rw [hbelow] at heq' hoff'
    refine ⟨free', hF', ?_, ?_⟩
    · rw [heq', heq, hnext, add_assoc]
    · rw [hnext]
      exact hoff.trans hoff'

-- from here on trees are taken apart by the lemmas above only
attribute [irreducible] EntryFormat.SameTree

end RadixTable
