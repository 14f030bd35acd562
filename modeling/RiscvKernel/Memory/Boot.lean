import RiscvKernel.Layout
import RiscvKernel.Memory.MapPage

/-!
# The pages at boot

What `page_init` and `mmu_init` leave behind: all managed pages are free, then some of them are
the tables of the kernel's own page table.

* `pageInit_spec`: the free list holds exactly the managed pages.
* `mmuInit_spec`: the tables of `root_page_table` are the pages taken from the free list. The
  loop takes at most two pages for each 2 MiB it maps, so 133 free pages are enough.
-/

namespace RiscvKernel

open ByteMemory RadixTable EntryFormat

variable {n : ℕ}

/-! ### The free list -/

/-- The pages of RAM from `start` on. -/
def pagesFrom (start : ℕ) : Multiset ℕ :=
  (Multiset.range ((ramEnd - start) / 4096)).map fun i => start + 4096 * i

theorem mem_pagesFrom {start p : ℕ} (hstart : PageAligned start) :
    p ∈ pagesFrom start ↔ PageAligned p ∧ start ≤ p ∧ p < ramEnd := by
  have hram : ramEnd = 0x88000000 := rfl
  rw [PageAligned] at hstart ⊢
  rw [pagesFrom, Multiset.mem_map]
  constructor
  · rintro ⟨i, hi, rfl⟩
    rw [Multiset.mem_range] at hi
    omega
  · rintro ⟨hal, hge, hlt⟩
    refine ⟨(p - start) / 4096, ?_, by omega⟩
    rw [Multiset.mem_range]
    omega

/-- `ALIGN_UP` of an address in RAM. -/
theorem toNat_alignUp {k : ℕ} (hk : k ≤ ramEnd) :
    (alignUp (BitVec.ofNat 64 k)).toNat = (k + 4095) / 4096 * 4096 := by
  have hram : ramEnd = 0x88000000 := rfl
  rw [alignUp, show (~~~(4096#64 - 1#64) : Word) = ~~~0xFFF#64 by decide, toNat_and_not_fff,
    BitVec.toNat_sub, BitVec.toNat_add]
  simp only [BitVec.toNat_ofNat]
  omega

/-- The loop of `page_init` makes a list of exactly the pages from its start on. -/
theorem forPages_link_spec {start : ℕ} (hal : PageAligned start) (hpos : 0 < start)
    (hle : start ≤ ramEnd) (m : Mem) :
    Outcome False
      (fun t => ∃ free, FreePages t free ∧ (free : Multiset ℕ) = pagesFrom start ∧
        EqOff (pagesFrom start) m t.mem)
      (forPages (fun (s : Phys) p => some
        { mem := storeWord s.mem p (BitVec.ofNat 64 s.freeList), freeList := p })
        start ramEnd { mem := m, freeList := 0 }) := by
  have hram : ramEnd = 0x88000000 := rfl
  have h12 := hal
  rw [PageAligned] at h12
  have hturns : (ramEnd - start + 4095) / 4096 = (ramEnd - start) / 4096 := by omega
  -- after `i` turns the first `i` pages are on the list
  rw [pagesFrom, ← hturns]
  refine outcome_forPages
    (fun i t => ∃ free, FreePages t free ∧
      (free : Multiset ℕ) = (Multiset.range i).map (fun i => start + 4096 * i) ∧
      EqOff ((Multiset.range ((ramEnd - start + 4095) / 4096)).map fun i => start + 4096 * i) m
        t.mem)
    ⟨[], ⟨rfl, by simp, List.nodup_nil⟩, rfl, EqOff.refl _ _⟩ ?_
  rintro i hi t ⟨free, hf, hfree, hoff⟩
  have hpage : IsPage (start + 4096 * i) := by
    refine ⟨?_, by omega, by omega⟩
    rw [PageAligned]
    omega
  have hnot : start + 4096 * i ∉ free := by
    intro hmem
    rw [← Multiset.mem_coe, hfree, Multiset.mem_map] at hmem
    obtain ⟨j, hj, hjp⟩ := hmem
    rw [Multiset.mem_range] at hj
    omega
  have hfreed := freePage_spec hf hpage hnot
  rw [freePage, if_neg hpage.pos.ne'] at hfreed
  refine ⟨(start + 4096 * i) :: free, hfreed.1, ?_, hoff.trans_self (hfreed.2.mono ?_)⟩
  · rw [Multiset.range_succ, Multiset.map_cons, ← hfree]
    rfl
  · intro q hq
    rw [Multiset.mem_singleton.mp hq]
    refine Multiset.mem_map_of_mem _ (Multiset.mem_range.mpr ?_)
    omega

/-- `page_init` makes a list of exactly the pages behind the kernel image. -/
theorem pageInit_pages {kernelEnd : ℕ} (hpos : 0 < kernelEnd) (hle : kernelEnd ≤ ramEnd) (m : Mem) :
    ∃ s free, pageInit kernelEnd m = some s ∧ FreePages s free ∧
      (free : Multiset ℕ) = pagesFrom ((kernelEnd + 4095) / 4096 * 4096) ∧
      EqOff (pagesFrom ((kernelEnd + 4095) / 4096 * 4096)) m s.mem := by
  have hram : ramEnd = 0x88000000 := rfl
  have hal : PageAligned ((kernelEnd + 4095) / 4096 * 4096) := by
    rw [PageAligned]
    omega
  rw [pageInit, toNat_alignUp hle]
  obtain ⟨s, hs, free, hf, hfree, hoff⟩ :=
    (forPages_link_spec hal (by omega) (by omega) m).exists_of_not_stuck id
  exact ⟨s, free, hs, hf, hfree, hoff⟩

/-- `page_init` makes a list of exactly the managed pages. -/
theorem pageInit_spec (L : Layout n) (m : Mem) :
    ∃ s free, pageInit L.kernelEnd m = some s ∧ FreePages s free ∧
      (free : Multiset ℕ) = L.managed ∧ EqOff L.managed m s.mem := by
  have hlo := L.textStart_lt_kernelEnd
  have htext : textStart = 0x80000000 := rfl
  have hstart : (L.kernelEnd + 4095) / 4096 * 4096 = L.kernelEnd := by
    have hal := L.kernelEnd_aligned
    rw [PageAligned] at hal
    omega
  have hinit := pageInit_pages (by omega : 0 < L.kernelEnd) L.kernelEnd_le m
  rwa [hstart] at hinit

/-! ### The kernel's own page table -/

/-- From `s` to `s'` a page table was built whose tables are the pages `taken`. -/
structure TablesTaken (s s' : Phys) (root : ℕ) (free taken free' : List ℕ) : Prop where
  free_eq : free = taken ++ free'
  isFree : FreePages s' free'
  aligned : PageAligned root
  tables : sv39.tables s'.mem 3 root = ↑taken
  eqOff : EqOff ↑taken s.mem s'.mem

variable {s s' : Phys} {root p : ℕ} {free taken free' : List ℕ}

/-- One more page mapped. -/
theorem TablesTaken.mapPage (va flags : Word) (h : TablesTaken s s' root free taken free')
    (hnd : free.Nodup) (hp : IsPage p) (hflags : flags.toNat < 2 ^ 10) (hv : flags &&& pteV ≠ 0) :
    Outcome (free'.length < 2 ∧ sv39.slot s'.mem (getVpn va) 2 root = none)
      (fun s'' => ∃ new free'', new.length ≤ 2 ∧
        (sv39.slot s'.mem (getVpn va) 2 root ≠ none → new = []) ∧
        sv39.slot s''.mem (getVpn va) 2 root ≠ none ∧
        TablesTaken s s'' root free (taken ++ new) free'')
      (mapPage root va (BitVec.ofNat 64 p) flags s') := by
  have hnd' : ((free' : Multiset ℕ) + sv39.tables s'.mem 3 root).Nodup := by
    rw [h.tables, add_comm, Multiset.coe_add, ← h.free_eq]
    exact hnd
  refine (mapPage_spec h.isFree h.aligned hnd' hp.aligned hp.lt hflags hv).mono id ?_
  rintro s'' ⟨new, free'', hfree, hf, hlen, hnone, hmapped⟩
  have htables : sv39.tables s''.mem 3 root = ↑(taken ++ new) := by
    rw [hmapped.tables_eq, h.tables, Multiset.coe_add]
  refine ⟨new, free'', hlen, hnone, hmapped.slot, ⟨?_, hf, h.aligned, htables, ?_⟩⟩
  · rw [h.free_eq, hfree, List.append_assoc]
  · have hoff := hmapped.eqOff
    rw [h.tables, Multiset.coe_add] at hoff
    refine (h.eqOff.mono fun q hq => ?_).trans_self hoff
    exact List.mem_append_left _ hq

/-- A loop that maps the pages of a range to themselves takes at most two pages for each 2 MiB,
the first of which has to be at the start of a leaf table. -/
theorem TablesTaken.mapRange (lo hi : ℕ) (flags : Word)
    (h : TablesTaken s s' root free taken free') (hnd : free.Nodup) (hlo : lo % 2 ^ 21 = 0)
    (hpos : 0 < lo) (hhi : hi ≤ 2 ^ 32)
    (hflags : flags.toNat < 2 ^ 10) (hv : flags &&& pteV ≠ 0) :
    Outcome (free.length < taken.length + 2 * (((hi - lo + 4095) / 4096 + 511) / 512))
      (fun s'' => ∃ taken' free'',
        taken'.length ≤ taken.length + 2 * (((hi - lo + 4095) / 4096 + 511) / 512) ∧
        TablesTaken s s'' root free taken' free'')
      (forPages (fun s p =>
          RiscvKernel.mapPage root (BitVec.ofNat 64 p) (BitVec.ofNat 64 p) flags s)
        lo hi s') := by
  -- within 2 MiB the leaf table of the page is there already
  refine Outcome.mono (outcome_forPages
    (fun i t => ∃ taken' free'', taken'.length ≤ taken.length + 2 * ((i + 511) / 512) ∧
      (i % 512 ≠ 0 → sv39.slot t.mem (getVpn (BitVec.ofNat 64 (lo + 4096 * i))) 2 root ≠ none) ∧
      TablesTaken s t root free taken' free'')
    ⟨taken, free', by omega, by simp, h⟩ ?_) id ?_
  rotate_left
  · rintro s'' ⟨taken', free'', hlen, -, htaken⟩
    exact ⟨taken', free'', hlen, htaken⟩
  · rintro i hi' t ⟨taken', free'', hlen, hslot, htaken⟩
    have hpage : IsPage (lo + 4096 * i) := by
      refine ⟨?_, by omega, by omega⟩
      rw [PageAligned]
      omega
    have hlength : free.length = taken'.length + free''.length := by
      rw [htaken.free_eq, List.length_append]
    refine (htaken.mapPage _ _ hnd hpage hflags hv).mono ?_ ?_
    · -- the walk needs new tables only at the start of a leaf table
      rintro ⟨hshort, hnone⟩
      have hstart : i % 512 = 0 := by
        by_contra hne
        exact hslot hne hnone
      omega
    · rintro t' ⟨new, free₃, hnew, hnone, hsome, htaken'⟩
      refine ⟨taken' ++ new, free₃, ?_, fun hne => ?_, htaken'⟩
      · rw [List.length_append]
        by_cases hstart : i % 512 = 0
        · omega
        · rw [hnone (hslot hstart), List.length_nil]
          omega
      · -- the next page has the same leaf table
        refine (not_congr (slot_eq_none_congr fun k hk hk2 => ?_)).mpr hsome
        rw [getVpn_eq, getVpn_eq, BitVec.toNat_ofNat, BitVec.toNat_ofNat]
        obtain rfl | rfl : k = 1 ∨ k = 2 := by omega
        · omega
        · omega

/-- `mmu_init` builds the kernel's own page table in pages from the front of the free list. -/
theorem mmuInit_spec (hf : FreePages s free) :
    Outcome (free.length < 133)
      (fun r => ∃ taken free', taken.length ≤ 133 ∧ TablesTaken s r.2 r.1 free taken free')
      (mmuInit s) := by
  refine ((allocPage_spec hf).mono (fun hstuck => by omega) fun _ h => h).bind ?_
  rintro ⟨root, t⟩ ⟨free₀, hfree, hf', hoff, hz⟩
  change free = root :: free₀ at hfree
  have hroot : IsPage root := hf.isPage _ (hfree ▸ List.mem_cons_self)
  have hstart : TablesTaken s t root free [root] free₀ :=
    ⟨hfree, hf', hroot.aligned, nodes_of_cleared hz, hoff⟩
  -- the timer
  have htimer := hstart.mapRange 0x2000000 0x2010000 (pteR ||| pteW ||| pteV) hf.nodup
    (by decide) (by decide) (by decide) (by decide) (by decide)
  refine (htimer.mono (fun hstuck => ?_) fun _ h => h).bind ?_
  · rw [List.length_singleton] at hstuck
    omega
  rintro u ⟨taken₁, free₁, hlen₁, htaken₁⟩
  have hlength₁ : free.length = taken₁.length + free₁.length := by
    rw [htaken₁.free_eq, List.length_append]
  rw [List.length_singleton] at hlen₁
  -- the serial port
  have huart : IsPage 0x10000000 := ⟨by decide, by decide, by decide⟩
  have hserial := htaken₁.mapPage 0x10000000#64 (pteR ||| pteW ||| pteV) hf.nodup huart (by decide)
    (by decide)
  refine (hserial.mono (fun hstuck => by omega) fun _ h => h).bind ?_
  rintro v ⟨new, free₂, hnew, -, -, htaken₂⟩
  -- the memory
  have hram := htaken₂.mapRange 0x80000000 (0x80000000 + 128 * 1024 * 1024)
    (pteR ||| pteW ||| pteX ||| pteV) hf.nodup (by decide) (by decide) (by decide) (by decide)
    (by decide)
  refine (hram.mono (fun hstuck => ?_) fun _ h => h).bind ?_
  · rw [List.length_append] at hstuck
    omega
  rintro w ⟨taken₃, free₃, hlen₃, htaken₃⟩
  rw [List.length_append] at hlen₃
  exact ⟨taken₃, free₃, by omega, htaken₃⟩

end RiscvKernel
