import RiscvKernel.Lib.RadixLoops
import RiscvKernel.Memory.Page

/-!
# Sv39 page tables

The functions of `kernel/mmu.c`. A page table is a radix table of three levels (`sv39`): the
page at level 2 names tables of level 1, these name tables of level 0, and their entries name
the frames.

* `pteToPa_paToPte`: an entry names the page it was made for.
* `walkPte`, `mapPage`, `copyUserPageTable`, `freeUserPageTable`: the source's functions, with
  each of its nested loops a definition of its own.

A function returns `none` where `alloc_page` hangs in it.
-/

namespace RiscvKernel

open ByteMemory RadixTable

/-! ### Page-table entries -/

/-- `PTE_V`. -/
def pteV : Word := 1#64 <<< 0

/-- `PTE_R`. -/
def pteR : Word := 1#64 <<< 1

/-- `PTE_W`. -/
def pteW : Word := 1#64 <<< 2

/-- `PTE_X`. -/
def pteX : Word := 1#64 <<< 3

/-- `PTE_U`. -/
def pteU : Word := 1#64 <<< 4

/-- `PTE_A`. -/
def pteA : Word := 1#64 <<< 6

/-- `PTE_D`. -/
def pteD : Word := 1#64 <<< 7

/-- `get_vpn`: the index of `va` in a table of the given level. -/
def getVpn (va : Word) (level : ℕ) : ℕ := ((va >>> (12 + level * 9)) &&& 0x1FF#64).toNat

/-- `pte_to_pa`, and `pte_to_pa_local` of `task.c`. -/
def pteToPa (pte : Word) : Word := (pte >>> 10) <<< 12

/-- `pa_to_pte`. -/
def paToPte (pa flags : Word) : Word := ((pa >>> 12) <<< 10) ||| flags

/-- `mmu_make_satp`. -/
def mmuMakeSatp (pgd : ℕ) : Word := (8#64 <<< 60) ||| (BitVec.ofNat 64 pgd >>> 12)

/-- `mmu_satp_to_pgd`. -/
def mmuSatpToPgd (satp : Word) : ℕ := ((satp &&& 0xFFFFFFFFFFF#64) <<< 12).toNat

/-! ### Walking and mapping -/

/-- The loop of `walk_pte` from a level downwards; `0` is the null pointer. -/
def walkLevels (va : Word) (create : Bool) : ℕ → ℕ → Phys → Option (ℕ × Phys)
  | 0, table, s => some (table + 8 * getVpn va 0, s)
  | level + 1, table, s =>
    let pte := table + 8 * getVpn va (level + 1)
    if loadWord s.mem pte &&& pteV ≠ 0 then
      walkLevels va create level (pteToPa (loadWord s.mem pte)).toNat s
    else if create = false then some (0, s)
    else
      (allocPage s).bind fun (newPage, s) =>
        walkLevels va create level newPage
          { s with mem := storeWord s.mem pte (paToPte (BitVec.ofNat 64 newPage) pteV) }

/-- `walk_pte`: the address of the leaf entry of `va`. -/
def walkPte (pgd : ℕ) (va : Word) (create : Bool) (s : Phys) : Option (ℕ × Phys) :=
  walkLevels va create 2 pgd s

/-- `map_page`. -/
def mapPage (pgd : ℕ) (va pa flags : Word) (s : Phys) : Option Phys :=
  (walkPte pgd va true s).bind fun (pte, s) =>
    some { s with mem := storeWord s.mem pte (paToPte pa (flags ||| pteA ||| pteD)) }

/-- `mmu_init`: the kernel's own table, with the device and RAM pages mapped to themselves.
Returns `root_page_table`. -/
def mmuInit (s : Phys) : Option (ℕ × Phys) :=
  (allocPage s).bind fun (root, s) =>
  (forPages (fun s p => mapPage root (BitVec.ofNat 64 p) (BitVec.ofNat 64 p)
    (pteR ||| pteW ||| pteV) s) 0x2000000 0x2010000 s).bind fun s =>
  (mapPage root 0x10000000#64 0x10000000#64 (pteR ||| pteW ||| pteV) s).bind fun s =>
  (forPages (fun s pa => mapPage root (BitVec.ofNat 64 pa) (BitVec.ofNat 64 pa)
    (pteR ||| pteW ||| pteX ||| pteV) s) 0x80000000 (0x80000000 + 128 * 1024 * 1024) s).bind
    fun s => some (root, s)

/-! ### Freeing -/

/-- The loop `for (i = 0; i < 512; i++)` over the entries of a table. -/
def eachEntry (body : Phys → ℕ → Phys) (s : Phys) : Phys := (List.range 512).foldl body s

/-- The same loop over a body in which `alloc_page` may hang. -/
def forEntries (body : Phys → ℕ → Option Phys) (s : Phys) : Option Phys :=
  (List.range 512).foldlM body s

/-- The body of the innermost loop of `free_user_page_table`: give back the frame of a valid
leaf entry, unless it lies in the kernel image. -/
def freeLeaf (kernelEnd pteTable : ℕ) (s : Phys) (k : ℕ) : Phys :=
  let pte := loadWord s.mem (pteTable + 8 * k)
  if pte &&& pteV ≠ 0 then
    let leafPa := (pteToPa pte).toNat
    if kernelEnd ≤ leafPa then freePage s leafPa else s
  else s

/-- The body of the middle loop: give back a leaf table and its frames. -/
def freeMiddle (kernelEnd pmd : ℕ) (s : Phys) (j : ℕ) : Phys :=
  let pmdEntry := loadWord s.mem (pmd + 8 * j)
  if pmdEntry &&& pteV ≠ 0 then
    let pteTable := (pteToPa pmdEntry).toNat
    freePage (eachEntry (freeLeaf kernelEnd pteTable) s) pteTable
  else s

/-- The body of the outer loop: give back a middle table and what is below it, unless the
entry is the one of the kernel's own table. -/
def freeTop (kernelEnd rootPageTable pgd : ℕ) (s : Phys) (i : ℕ) : Phys :=
  let pgdEntry := loadWord s.mem (pgd + 8 * i)
  if pgdEntry = loadWord s.mem (rootPageTable + 8 * i) then s
  else if pgdEntry &&& pteV ≠ 0 then
    let pmd := (pteToPa pgdEntry).toNat
    freePage (eachEntry (freeMiddle kernelEnd pmd) s) pmd
  else s

/-- `free_user_page_table`. -/
def freeUserPageTable (kernelEnd rootPageTable pgd : ℕ) (s : Phys) : Phys :=
  freePage (eachEntry (freeTop kernelEnd rootPageTable pgd) s) pgd

/-! ### Copying -/

/-- The loop that copies a page byte by byte. -/
def copyPage (src dst : ℕ) (m : Mem) : Mem := storeLoop (fun m b => m (src + b)) dst 4096 m

/-- The body of the innermost loop of `copy_user_page_table`: a frame of its own for a valid
leaf entry, with the same bytes and flags. -/
def copyLeaf (srcPteTable dstPteTable : ℕ) (s : Phys) (k : ℕ) : Option Phys :=
  let pte := loadWord s.mem (srcPteTable + 8 * k)
  if pte &&& pteV ≠ 0 then
    (allocPage s).bind fun (dstDataPa, s) =>
      let m := copyPage (pteToPa pte).toNat dstDataPa s.mem
      some
        { s with
          mem := storeWord m (dstPteTable + 8 * k) (paToPte (BitVec.ofNat 64 dstDataPa)
            (loadWord m (srcPteTable + 8 * k) &&& 0x3FF#64)) }
  else some s

/-- The body of the middle loop: a leaf table of its own. -/
def copyMiddle (srcPmd dstPmd : ℕ) (s : Phys) (j : ℕ) : Option Phys :=
  let pmdEntry := loadWord s.mem (srcPmd + 8 * j)
  if pmdEntry &&& pteV ≠ 0 then
    (allocPage s).bind fun (dstPteTable, s) =>
      forEntries (copyLeaf (pteToPa pmdEntry).toNat dstPteTable)
        { s with
          mem := storeWord s.mem (dstPmd + 8 * j) (paToPte (BitVec.ofNat 64 dstPteTable)
            (loadWord s.mem (srcPmd + 8 * j) &&& 0x3FF#64)) }
  else some s

/-- The body of the outer loop: the kernel's entries are shared, the others get a middle table
of their own. -/
def copyTop (rootPageTable srcPgd dstPgd : ℕ) (s : Phys) (i : ℕ) : Option Phys :=
  let pgdEntry := loadWord s.mem (srcPgd + 8 * i)
  if pgdEntry = loadWord s.mem (rootPageTable + 8 * i) then
    some { s with mem := storeWord s.mem (dstPgd + 8 * i) pgdEntry }
  else if pgdEntry &&& pteV ≠ 0 then
    (allocPage s).bind fun (dstPmd, s) =>
      forEntries (copyMiddle (pteToPa pgdEntry).toNat dstPmd)
        { s with
          mem := storeWord s.mem (dstPgd + 8 * i) (paToPte (BitVec.ofNat 64 dstPmd)
            (loadWord s.mem (srcPgd + 8 * i) &&& 0x3FF#64)) }
  else some s

/-- `copy_user_page_table`. -/
def copyUserPageTable (rootPageTable srcPgd : ℕ) (s : Phys) : Option (ℕ × Phys) :=
  (allocPage s).bind fun (dstPgd, s) =>
    (forEntries (copyTop rootPageTable srcPgd dstPgd) s).bind fun s =>
      some (dstPgd, s)

/-! ### Copying a page -/

/-- The copying loop copies the page and touches no other. -/
theorem copyPage_apply (m : Mem) {src dst : ℕ} (hsrc : PageAligned src) (hdst : PageAligned dst)
    (hne : src ≠ dst) (a : ℕ) :
    copyPage src dst m a = if dst ≤ a ∧ a < dst + 4096 then m (src + (a - dst)) else m a := by
  apply storeLoop_apply
  intro m' hm' b hb
  apply hm'
  rw [PageAligned] at hsrc hdst
  omega

attribute [irreducible] copyPage

theorem eqOff_copyPage (m : Mem) {src dst : ℕ} (hsrc : PageAligned src) (hdst : PageAligned dst)
    (hne : src ≠ dst) : EqOff {dst} m (copyPage src dst m) := by
  intro a ha
  rw [copyPage_apply m hsrc hdst hne, if_neg]
  intro hin
  apply ha
  rw [Multiset.mem_singleton, show a = dst + (a - dst) by omega]
  exact pageOf_add hdst (by omega)

/-! ### The format of the entries -/

theorem toNat_shiftRight_shiftLeft (x : Word) (a b : ℕ) :
    ((x >>> a) <<< b).toNat = x.toNat / 2 ^ a * 2 ^ b % 2 ^ 64 := by
  rw [BitVec.toNat_shiftLeft, BitVec.toNat_ushiftRight, Nat.shiftRight_eq_div_pow,
    Nat.shiftLeft_eq]

/-- Rounding an address down to its page. -/
theorem toNat_and_not_fff (x : Word) : (x &&& ~~~ 0xFFF#64).toNat = x.toNat / 4096 * 4096 := by
  have hshift : x &&& ~~~ 0xFFF#64 = (x >>> 12) <<< 12 := by
    rw [show (~~~ 0xFFF#64 : Word) = BitVec.allOnes 64 <<< 12 by decide]
    ext i hi
    simp only [BitVec.getElem_and, BitVec.getElem_shiftLeft, BitVec.getElem_allOnes,
      BitVec.getElem_ushiftRight]
    by_cases h : i < 12
    · simp [h]
    · simp [h]
      rw [← BitVec.getLsbD_eq_getElem]
      congr 1
      omega
  rw [hshift, toNat_shiftRight_shiftLeft]
  omega

/-- A table index is nine bits of the address. -/
theorem getVpn_eq (va : Word) (level : ℕ) :
    getVpn va level = va.toNat / 2 ^ (12 + 9 * level) % 512 := by
  rw [getVpn, BitVec.toNat_and, BitVec.toNat_ushiftRight, Nat.shiftRight_eq_div_pow]
  rw [show (0x1FF#64 : Word).toNat = 2 ^ 9 - 1 from rfl,
    Nat.and_two_pow_sub_one_eq_mod, Nat.mul_comm level]

theorem pteToPa_aligned (pte : Word) : PageAligned (pteToPa pte).toNat := by
  rw [PageAligned, pteToPa, toNat_shiftRight_shiftLeft]
  omega

/-- The entries of `mmu.c`: 512 to a table, valid when `PTE_V` is set. -/
def sv39 : EntryFormat where
  entries := 512
  fits := le_rfl
  child e := if e &&& pteV ≠ 0 then some (pteToPa e).toNat else none
  aligned e q h := by
    split_ifs at h
    obtain rfl := Option.some.inj h
    exact pteToPa_aligned e
  zero := rfl

theorem sv39_entries : sv39.entries = 512 := rfl

theorem eachEntry_eq (body : Phys → ℕ → Phys) (s : Phys) :
    eachEntry body s = (List.range sv39.entries).foldl body s := rfl

theorem forEntries_eq (body : Phys → ℕ → Option Phys) (s : Phys) :
    forEntries body s = (List.range sv39.entries).foldlM body s := rfl

attribute [irreducible] eachEntry forEntries

theorem sv39_child_of_valid {e : Word} (h : e &&& pteV ≠ 0) :
    sv39.child e = some (pteToPa e).toNat := if_pos h

theorem sv39_child_of_not_valid {e : Word} (h : ¬ e &&& pteV ≠ 0) : sv39.child e = none :=
  if_neg h

theorem getVpn_lt (va : Word) (level : ℕ) : getVpn va level < sv39.entries := by
  rw [getVpn, sv39_entries, BitVec.toNat_and]
  exact Nat.lt_of_le_of_lt Nat.and_le_right (by decide)

variable {p : ℕ} {pa flags : Word}

/-- The flags of a new entry are the ones it was made with. -/
theorem paToPte_and_flags (pa flags : Word) :
    paToPte pa flags &&& 0x3FF#64 = flags &&& 0x3FF#64 := by
  have hlow : ∀ x : Word, x <<< 10 &&& 0x3FF#64 = 0#64 := by
    intro x
    apply BitVec.eq_of_toNat_eq
    rw [BitVec.toNat_and, BitVec.toNat_shiftLeft, Nat.shiftLeft_eq]
    rw [show (0x3FF#64 : Word).toNat = 2 ^ 10 - 1 from rfl, Nat.and_two_pow_sub_one_eq_mod]
    simp only [BitVec.toNat_ofNat]
    omega
  rw [paToPte, BitVec.and_or_distrib_right, hlow, BitVec.zero_or]

/-- A flag bit of a new entry is the bit it was made with. -/
theorem paToPte_and (pa flags : Word) {bit : Word} (hbit : bit &&& 0x3FF#64 = bit) :
    paToPte pa flags &&& bit = flags &&& bit := by
  rw [← hbit, BitVec.and_comm bit, ← BitVec.and_assoc, ← BitVec.and_assoc, paToPte_and_flags]

theorem paToPte_valid (pa flags : Word) : paToPte pa flags &&& pteV = flags &&& pteV :=
  paToPte_and pa flags rfl

/-- An entry names the page it was made for. -/
theorem pteToPa_paToPte (h12 : PageAligned p) (hlt : p < 2 ^ 56) (hflags : flags.toNat < 2 ^ 10) :
    (pteToPa (paToPte (BitVec.ofNat 64 p) flags)).toNat = p := by
  rw [PageAligned] at h12
  have hor : (paToPte (BitVec.ofNat 64 p) flags).toNat = p / 4096 * 1024 + flags.toNat := by
    rw [paToPte, BitVec.toNat_or, toNat_shiftRight_shiftLeft, BitVec.toNat_ofNat,
      Nat.mod_eq_of_lt (by omega), Nat.mod_eq_of_lt (by omega)]
    have := Nat.shiftLeft_add_eq_or_of_lt hflags (p / 2 ^ 12)
    rw [Nat.shiftLeft_eq] at this
    exact this.symm
  rw [pteToPa, toNat_shiftRight_shiftLeft, hor]
  omega

/-- `satp` names the page table it was made for. -/
theorem mmuSatpToPgd_mmuMakeSatp (hp : IsPage p) : mmuSatpToPgd (mmuMakeSatp p) = p := by
  have h12 := hp.aligned
  have hlt := hp.lt
  rw [PageAligned] at h12
  have hppn : ((BitVec.ofNat 64 p) >>> 12).toNat = p / 4096 := by
    rw [BitVec.toNat_ushiftRight, BitVec.toNat_ofNat, Nat.shiftRight_eq_div_pow]
    omega
  have hmask : mmuMakeSatp p &&& 0xFFFFFFFFFFF#64 = BitVec.ofNat 64 p >>> 12 := by
    apply BitVec.eq_of_toNat_eq
    have hmode : (8#64 <<< 60) &&& 0xFFFFFFFFFFF#64 = 0#64 := by decide
    rw [mmuMakeSatp, BitVec.and_or_distrib_right, hmode, BitVec.zero_or, BitVec.toNat_and, hppn,
      show (0xFFFFFFFFFFF#64 : Word).toNat = 2 ^ 44 - 1 from rfl, Nat.and_two_pow_sub_one_eq_mod]
    omega
  rw [mmuSatpToPgd, hmask, BitVec.toNat_shiftLeft, hppn, Nat.shiftLeft_eq]
  omega

/-- The child of a valid new entry is the page it was made for. -/
theorem sv39_child_paToPte (hal : PageAligned p) (hlt : p < 2 ^ 56)
    (hflags : flags.toNat < 2 ^ 10) (hv : flags &&& pteV ≠ 0) :
    sv39.child (paToPte (BitVec.ofNat 64 p) flags) = some p := by
  rw [sv39_child_of_valid (by rwa [paToPte_valid]), pteToPa_paToPte hal hlt hflags]

/-- The entries of a cleared page are zero. -/
theorem loadWord_of_cleared {m : Mem} {p j : ℕ} (hz : ∀ b < 4096, m (p + b) = 0)
    (hj : j < sv39.entries) : loadWord m (p + 8 * j) = 0#64 := by
  rw [sv39_entries] at hj
  apply loadWord_eq_zero
  intro b hb
  have hbyte := hz (8 * j + b) (by omega)
  rwa [← Nat.add_assoc] at hbyte

-- 512 turns of a loop are never to be unrolled
attribute [irreducible] sv39

end RiscvKernel
