import RiscvKernel.Memory.CopyTable

/-!
# Freeing a user page table

`free_user_page_table` gives back a whole tree: the tables of every level and the frames that
do not lie in the kernel image. Its three nested loops are stated once for any state whose
entries are read and to which pages are given back, a `Reclaimer`, so that the same proof covers
the kernel's state and a state that records the order of reads and frees. Each loop is the loop of
`freeEntries`:

* `freesTable_freeLeaf`, `freesTable_freeMiddle`: the inner loops give back a leaf table and a
  middle table;
* `Reclaimer.freeUserPageTable_spec`, `freeUserPageTable_spec`: the whole function returns exactly
  the owned pages of the table to the free list and writes to no other page.
-/

namespace RiscvKernel

open ByteMemory RadixTable EntryFormat

/-- What a frame counts for its owner: nothing if it lies in the kernel image. -/
def ownedFrame (kernelEnd q : ℕ) : Multiset ℕ := if kernelEnd ≤ q then {q} else 0

/-- The pages a page table owns: its tables and its frames outside the kernel image. -/
def owned (kernelEnd : ℕ) (m : Mem) (h p : ℕ) : Multiset ℕ :=
  sv39.nodes (ownedFrame kernelEnd) m h p

/-- The pages owned through one entry. -/
def ownedBelow (kernelEnd : ℕ) (m : Mem) (h : ℕ) (e : Word) : Multiset ℕ :=
  sv39.below (ownedFrame kernelEnd) m h e

/-! ### The loops over any state -/

/-- A state with the pages that are free in it. Looking at an entry of a page that is not free
changes nothing, and a page that is not free can be given back. -/
structure Reclaimer (σ : Type) where
  /-- Physical memory. -/
  mem : σ → Mem
  /-- An entry of a page is read. -/
  look : σ → ℕ → σ
  /-- `free_page`. -/
  give : σ → ℕ → σ
  /-- The free pages. -/
  Free : σ → List ℕ → Prop
  mem_look : ∀ s p, mem (look s p) = mem s
  free_look : ∀ s p free, Free s free → p ∉ free → Free (look s p) free
  free_give : ∀ s p free, Free s free → IsPage p → p ∉ free →
    Free (give s p) (p :: free) ∧ EqOff {p} (mem s) (mem (give s p))

namespace Reclaimer

variable {σ : Type} (R : Reclaimer σ) (kernelEnd rootPageTable : ℕ)

/-- The loop over the entries of a table. -/
def eachEntry (body : σ → ℕ → σ) (s : σ) : σ := (List.range sv39.entries).foldl body s

/-- `freeLeaf` with its reads: the entry is read for the test and for the address. -/
def freeLeaf (pteTable : ℕ) (s : σ) (k : ℕ) : σ :=
  let pte := loadWord (R.mem s) (pteTable + 8 * k)
  let s := R.look s pteTable
  if pte &&& pteV ≠ 0 then
    let leafPa := (pteToPa pte).toNat
    let s := R.look s pteTable
    if kernelEnd ≤ leafPa then R.give s leafPa else s
  else s

/-- `freeMiddle` with its reads. -/
def freeMiddle (pmd : ℕ) (s : σ) (j : ℕ) : σ :=
  let pmdEntry := loadWord (R.mem s) (pmd + 8 * j)
  let s := R.look s pmd
  if pmdEntry &&& pteV ≠ 0 then
    let pteTable := (pteToPa pmdEntry).toNat
    let s := R.look s pmd
    R.give (eachEntry (R.freeLeaf kernelEnd pteTable) s) pteTable
  else s

/-- `freeTop` with its reads: the entry is also compared with the one of the kernel's table. -/
def freeTop (pgd : ℕ) (s : σ) (i : ℕ) : σ :=
  let pgdEntry := loadWord (R.mem s) (pgd + 8 * i)
  let rootEntry := loadWord (R.mem s) (rootPageTable + 8 * i)
  let s := R.look (R.look s pgd) rootPageTable
  if pgdEntry = rootEntry then s
  else
    let s := R.look s pgd
    if pgdEntry &&& pteV ≠ 0 then
      let pmd := (pteToPa pgdEntry).toNat
      let s := R.look s pgd
      R.give (eachEntry (R.freeMiddle kernelEnd pmd) s) pmd
    else s

/-- `freeUserPageTable` with its reads. -/
def freeUserPageTable (pgd : ℕ) (s : σ) : σ :=
  R.give (eachEntry (R.freeTop kernelEnd rootPageTable pgd) s) pgd

end Reclaimer

/-- The kernel's state: reads leave no trace. -/
def physReclaimer : Reclaimer Phys where
  mem := Phys.mem
  look s _ := s
  give := freePage
  Free := FreePages
  mem_look _ _ := rfl
  free_look _ _ _ h _ := h
  free_give _ _ _ h hp hnot := freePage_spec h hp hnot

@[simp]
theorem physReclaimer_mem (s : Phys) : physReclaimer.mem s = s.mem := rfl

@[simp]
theorem physReclaimer_look (s : Phys) (p : ℕ) : physReclaimer.look s p = s := rfl

@[simp]
theorem physReclaimer_give (s : Phys) (p : ℕ) : physReclaimer.give s p = freePage s p := rfl

/-- Over the kernel's state the loops are those of the source. -/
theorem physReclaimer_freeUserPageTable (kernelEnd root pgd : ℕ) (s : Phys) :
    physReclaimer.freeUserPageTable kernelEnd root pgd s
      = freeUserPageTable kernelEnd root pgd s := by
  have hleaf : ∀ pteTable, physReclaimer.freeLeaf kernelEnd pteTable
      = freeLeaf kernelEnd pteTable := by
    intro pteTable
    ext1 s
    ext1 k
    simp only [Reclaimer.freeLeaf, freeLeaf, physReclaimer_mem, physReclaimer_look,
      physReclaimer_give]
    congr
  have hmiddle : ∀ pmd, physReclaimer.freeMiddle kernelEnd pmd = freeMiddle kernelEnd pmd := by
    intro pmd
    ext1 s
    ext1 j
    simp only [Reclaimer.freeMiddle, freeMiddle, hleaf, Reclaimer.eachEntry, eachEntry_eq,
      physReclaimer_mem, physReclaimer_look, physReclaimer_give]
  have htop : physReclaimer.freeTop kernelEnd root pgd = freeTop kernelEnd root pgd := by
    ext1 s
    ext1 i
    simp only [Reclaimer.freeTop, freeTop, hmiddle, Reclaimer.eachEntry, eachEntry_eq,
      physReclaimer_mem, physReclaimer_look, physReclaimer_give]
  rw [Reclaimer.freeUserPageTable, htop, freeUserPageTable, Reclaimer.eachEntry, eachEntry_eq,
    physReclaimer_give]

/-! ### What a loop gives back -/

section Loops

variable {σ : Type} (R : Reclaimer σ)

/-- The body of a freeing loop gives back what is owned through entry `i`. -/
def FreesEntry (kernelEnd h : ℕ) (body : σ → ℕ → σ) (p : ℕ) (s : σ) (free : List ℕ) (i : ℕ) :
    Prop :=
  ∃ free' : List ℕ, R.Free (body s i) free' ∧
    (free' : Multiset ℕ)
      = ↑free + ownedBelow kernelEnd (R.mem s) h (loadWord (R.mem s) (p + 8 * i)) ∧
    EqOff (ownedBelow kernelEnd (R.mem s) h (loadWord (R.mem s) (p + 8 * i))) (R.mem s)
      (R.mem (body s i))

/-- The loop over a body, followed by giving back the table itself, gives back a table of height
`h + 1` and what it owns. -/
def FreesTable (kernelEnd h : ℕ) (body : ℕ → σ → ℕ → σ) : Prop :=
  ∀ s free p, R.Free s free → PageAligned p →
    ((free : Multiset ℕ) + owned kernelEnd (R.mem s) (h + 1) p).Nodup →
    (∀ x ∈ owned kernelEnd (R.mem s) (h + 1) p, IsPage x) →
    ∃ free' : List ℕ, R.Free (R.give (Reclaimer.eachEntry (body p) s) p) free' ∧
      (free' : Multiset ℕ) = ↑free + owned kernelEnd (R.mem s) (h + 1) p ∧
      EqOff (owned kernelEnd (R.mem s) (h + 1) p) (R.mem s)
        (R.mem (R.give (Reclaimer.eachEntry (body p) s) p))

variable {R} {kernelEnd h p i : ℕ} {s : σ} {free : List ℕ} {e : Word}

/-- An entry that is only looked at. -/
theorem freesEntry_of_none {body : σ → ℕ → σ} (hf : R.Free (body s i) free)
    (hmem : R.mem (body s i) = R.mem s)
    (hnone : sv39.child (loadWord (R.mem s) (p + 8 * i)) = none) :
    FreesEntry R kernelEnd h body p s free i := by
  rw [FreesEntry, ownedBelow, below_of_none hnone, hmem]
  exact ⟨free, hf, (add_zero _).symm, EqOff.refl _ _⟩

/-- The body of the innermost loop gives back its frame. -/
theorem freesEntry_freeLeaf (hf : R.Free s free) (hp : p ∉ free)
    (hnd : ((free : Multiset ℕ)
      + ownedBelow kernelEnd (R.mem s) 0 (loadWord (R.mem s) (p + 8 * i))).Nodup)
    (hpage : ∀ x ∈ ownedBelow kernelEnd (R.mem s) 0 (loadWord (R.mem s) (p + 8 * i)), IsPage x) :
    FreesEntry R kernelEnd 0 (R.freeLeaf kernelEnd p) p s free i := by
  have hlook := R.free_look s p free hf hp
  by_cases hv : loadWord (R.mem s) (p + 8 * i) &&& pteV ≠ 0
  swap
  · have hbody : R.freeLeaf kernelEnd p s i = R.look s p := if_neg hv
    refine freesEntry_of_none ?_ ?_ (sv39_child_of_not_valid hv)
    · rwa [hbody]
    · rw [hbody, R.mem_look]
  set q := (pteToPa (loadWord (R.mem s) (p + 8 * i))).toNat with hq
  have hbelow : ownedBelow kernelEnd (R.mem s) 0 (loadWord (R.mem s) (p + 8 * i))
      = ownedFrame kernelEnd q := by
    rw [ownedBelow, below_of_some (sv39_child_of_valid hv), nodes_zero]
  have hmem : R.mem (R.look (R.look s p) p) = R.mem s := by rw [R.mem_look, R.mem_look]
  rw [FreesEntry, Reclaimer.freeLeaf]
  dsimp only
  rw [if_pos hv, hbelow]
  rw [hbelow] at hnd hpage
  -- a frame below `kernelEnd` belongs to the kernel image and is not given back
  by_cases hin : kernelEnd ≤ q
  · rw [ownedFrame, if_pos hin] at *
    rw [if_pos hin]
    have hnot : q ∉ free := by
      rw [add_comm, Multiset.singleton_add, Multiset.nodup_cons] at hnd
      exact hnd.1
    have hfreed := R.free_give _ q free (R.free_look _ p free hlook hp)
      (hpage q (Multiset.mem_singleton_self q)) hnot
    rw [hmem] at hfreed
    refine ⟨q :: free, hfreed.1, ?_, hfreed.2⟩
    rw [← Multiset.cons_coe, ← Multiset.singleton_add, add_comm]
  · rw [ownedFrame, if_neg hin, if_neg hin, add_zero, hmem]
    exact ⟨free, R.free_look _ p free hlook hp, rfl, EqOff.refl _ _⟩

/-- After the loop over its entries, a table is given back itself. -/
theorem give_after_entries {t : σ} {free' : List ℕ} (hf : R.Free t free')
    (heq : (free' : Multiset ℕ) + {p} = ↑free + owned kernelEnd (R.mem s) (h + 1) p)
    (hnd : ((free : Multiset ℕ) + owned kernelEnd (R.mem s) (h + 1) p).Nodup) (hp : IsPage p)
    (hoff : EqOff (∑ i ∈ Finset.range sv39.entries,
      ownedBelow kernelEnd (R.mem s) h (loadWord (R.mem s) (p + 8 * i))) (R.mem s) (R.mem t)) :
    ∃ free'' : List ℕ, R.Free (R.give t p) free'' ∧
      (free'' : Multiset ℕ) = ↑free + owned kernelEnd (R.mem s) (h + 1) p ∧
      EqOff (owned kernelEnd (R.mem s) (h + 1) p) (R.mem s) (R.mem (R.give t p)) := by
  rw [← heq, add_comm, Multiset.singleton_add, Multiset.nodup_cons] at hnd
  obtain ⟨hf', hoff'⟩ := R.free_give t p free' hf hp hnd.1
  refine ⟨p :: free', hf', ?_, ?_⟩
  · rw [← heq, ← Multiset.cons_coe, ← Multiset.singleton_add, add_comm]
  · rw [owned, nodes_succ, add_comm]
    exact hoff.trans hoff'

/-- A loop whose body gives back what is owned through its entry gives back a table. -/
theorem freesTable_of_freesEntry {body : ℕ → σ → ℕ → σ}
    (hbody : ∀ s free p i, R.Free s free → p ∉ free →
      ((free : Multiset ℕ)
        + ownedBelow kernelEnd (R.mem s) h (loadWord (R.mem s) (p + 8 * i))).Nodup →
      (∀ x ∈ ownedBelow kernelEnd (R.mem s) h (loadWord (R.mem s) (p + 8 * i)), IsPage x) →
      FreesEntry R kernelEnd h (body p) p s free i) :
    FreesTable R kernelEnd h body := by
  intro s free p hf hp hnd hpage
  have hloop := freeEntries R.mem R.Free (body p) hf hp hnd ?_
  · obtain ⟨free', hf', heq, hoff⟩ := hloop
    exact give_after_entries hf' heq hnd (hpage p self_mem_nodes) hoff
  · intro i hi t free' hf' hself _ _ _ hbelow hnd'
    refine hbody t free' p i hf' hself hnd' fun x hx => hpage x ?_
    rw [ownedBelow, hbelow] at hx
    exact Multiset.mem_of_le (below_le_nodes hi) hx

/-- The innermost loop of `free_user_page_table` gives back a leaf table. -/
theorem freesTable_freeLeaf : FreesTable R kernelEnd 0 (R.freeLeaf kernelEnd) :=
  freesTable_of_freesEntry fun _ _ _ _ hf hp hnd hpage => freesEntry_freeLeaf hf hp hnd hpage

/-- The body of an outer loop, at a valid entry: the inner loop, then the inner table. `t` is the
state after the entry has been looked at. -/
theorem freesEntry_of_freesTable {body : ℕ → σ → ℕ → σ} {outer : σ → ℕ → σ} {t : σ}
    (hbody : FreesTable R kernelEnd h body) (hf : R.Free t free) (hmem : R.mem t = R.mem s)
    (hv : loadWord (R.mem s) (p + 8 * i) &&& pteV ≠ 0)
    (houter : outer s i = R.give
      (Reclaimer.eachEntry (body (pteToPa (loadWord (R.mem s) (p + 8 * i))).toNat) t)
      (pteToPa (loadWord (R.mem s) (p + 8 * i))).toNat)
    (hnd : ((free : Multiset ℕ)
      + ownedBelow kernelEnd (R.mem s) (h + 1) (loadWord (R.mem s) (p + 8 * i))).Nodup)
    (hpage : ∀ x ∈ ownedBelow kernelEnd (R.mem s) (h + 1) (loadWord (R.mem s) (p + 8 * i)),
      IsPage x) :
    FreesEntry R kernelEnd (h + 1) outer p s free i := by
  rw [FreesEntry, houter]
  rw [ownedBelow, below_of_some (sv39_child_of_valid hv)] at hnd hpage ⊢
  rw [← hmem] at hnd hpage ⊢
  exact hbody t free _ hf (pteToPa_aligned _) hnd hpage

/-- The middle loop of `free_user_page_table` gives back a middle table. -/
theorem freesTable_freeMiddle : FreesTable R kernelEnd 1 (R.freeMiddle kernelEnd) := by
  apply freesTable_of_freesEntry
  intro s free p i hf hp hnd hpage
  have hlook := R.free_look s p free hf hp
  by_cases hv : loadWord (R.mem s) (p + 8 * i) &&& pteV ≠ 0
  · exact freesEntry_of_freesTable freesTable_freeLeaf (R.free_look _ p free hlook hp)
      (by rw [R.mem_look, R.mem_look]) hv (if_pos hv) hnd hpage
  · have hbody : R.freeMiddle kernelEnd p s i = R.look s p := if_neg hv
    refine freesEntry_of_none ?_ ?_ (sv39_child_of_not_valid hv)
    · rwa [hbody]
    · rw [hbody, R.mem_look]

/-- The body of the outer loop gives back what is owned through its entry. -/
theorem freesEntry_freeTop {root : ℕ} (hf : R.Free s free) (hp : p ∉ free)
    (hroot : ∀ t, R.Free t free → R.Free (R.look t root) free)
    (hs : loadWord (R.mem s) (p + 8 * i) = loadWord (R.mem s) (root + 8 * i) →
      sv39.child (loadWord (R.mem s) (p + 8 * i)) = none)
    (hnd : ((free : Multiset ℕ)
      + ownedBelow kernelEnd (R.mem s) 2 (loadWord (R.mem s) (p + 8 * i))).Nodup)
    (hpage : ∀ x ∈ ownedBelow kernelEnd (R.mem s) 2 (loadWord (R.mem s) (p + 8 * i)), IsPage x) :
    FreesEntry R kernelEnd 2 (R.freeTop kernelEnd root p) p s free i := by
  have hlook := hroot _ (R.free_look s p free hf hp)
  have hlook' := R.free_look _ p free hlook hp
  by_cases heq : loadWord (R.mem s) (p + 8 * i) = loadWord (R.mem s) (root + 8 * i)
  · -- an entry that equals that of the root is left alone
    have hbody : R.freeTop kernelEnd root p s i = R.look (R.look s p) root := if_pos heq
    refine freesEntry_of_none ?_ ?_ (hs heq)
    · rwa [hbody]
    · rw [hbody, R.mem_look, R.mem_look]
  by_cases hv : loadWord (R.mem s) (p + 8 * i) &&& pteV ≠ 0
  · -- an entry of its own leads to a middle table
    refine freesEntry_of_freesTable freesTable_freeMiddle (R.free_look _ p free hlook' hp)
      ?_ hv ?_ hnd hpage
    · rw [R.mem_look, R.mem_look, R.mem_look, R.mem_look]
    · rw [Reclaimer.freeTop]
      dsimp only
      rw [if_neg heq, if_pos hv]
  · have hbody : R.freeTop kernelEnd root p s i = R.look (R.look (R.look s p) root) p := by
      rw [Reclaimer.freeTop]
      dsimp only
      rw [if_neg heq, if_neg hv]
    refine freesEntry_of_none ?_ ?_ (sv39_child_of_not_valid hv)
    · rwa [hbody]
    · rw [hbody, R.mem_look, R.mem_look, R.mem_look]

/-- The whole function gives back exactly the owned pages of the table and writes to no other
page. The entries of the kernel's own table are looked at on the way. -/
theorem Reclaimer.freeUserPageTable_spec {root pgd : ℕ} (hf : R.Free s free)
    (hpgd : PageAligned pgd) (hroot : PageAligned root)
    (hlook : ∀ t free', (∀ x ∈ free', x ∈ free ∨ x ∈ owned kernelEnd (R.mem s) 3 pgd) →
      R.Free t free' → R.Free (R.look t root) free')
    (hrootOut : root ∉ owned kernelEnd (R.mem s) 3 pgd) (hs : SharesNothing (R.mem s) pgd root)
    (hnd : ((free : Multiset ℕ) + owned kernelEnd (R.mem s) 3 pgd).Nodup)
    (hpage : ∀ x ∈ owned kernelEnd (R.mem s) 3 pgd, IsPage x) :
    ∃ free' : List ℕ, R.Free (R.freeUserPageTable kernelEnd root pgd s) free' ∧
      (free' : Multiset ℕ) = ↑free + owned kernelEnd (R.mem s) 3 pgd ∧
      EqOff (owned kernelEnd (R.mem s) 3 pgd) (R.mem s)
        (R.mem (R.freeUserPageTable kernelEnd root pgd s)) := by
  rw [Reclaimer.freeUserPageTable]
  have hloop := freeEntries R.mem R.Free (R.freeTop kernelEnd root pgd) hf hpgd hnd ?_
  · obtain ⟨free', hf', heq, hoff⟩ := hloop
    exact give_after_entries hf' heq hnd (hpage pgd self_mem_nodes) hoff
  · intro i hi t free' hf' hself hsub hoff hentry hbelow hnd'
    apply freesEntry_freeTop hf' hself _ _ hnd'
    · intro x hx
      rw [ownedBelow, hbelow] at hx
      exact hpage x (Multiset.mem_of_le (below_le_nodes hi) hx)
    · exact fun u hu => hlook u free' hsub hu
    · -- neither the entry nor the kernel's has been written yet
      rw [hentry, hoff.loadWord_eq hroot (hi.trans_le sv39.fits) hrootOut]
      exact hs i hi

end Loops

variable {kernelEnd : ℕ} {s : Phys} {free : List ℕ}

/-- `free_user_page_table` gives back exactly the owned pages of the table and writes to no
other page. -/
theorem freeUserPageTable_spec {root pgd : ℕ} (hf : FreePages s free) (hpgd : PageAligned pgd)
    (hroot : PageAligned root) (hrootOut : root ∉ owned kernelEnd s.mem 3 pgd)
    (hs : SharesNothing s.mem pgd root)
    (hnd : ((free : Multiset ℕ) + owned kernelEnd s.mem 3 pgd).Nodup)
    (hpage : ∀ x ∈ owned kernelEnd s.mem 3 pgd, IsPage x) :
    ∃ free' : List ℕ, FreePages (freeUserPageTable kernelEnd root pgd s) free' ∧
      (free' : Multiset ℕ) = ↑free + owned kernelEnd s.mem 3 pgd ∧
      EqOff (owned kernelEnd s.mem 3 pgd) s.mem (freeUserPageTable kernelEnd root pgd s).mem := by
  rw [← physReclaimer_freeUserPageTable]
  exact Reclaimer.freeUserPageTable_spec (R := physReclaimer) hf hpgd hroot (fun _ _ _ h => h)
    hrootOut hs hnd hpage

end RiscvKernel
