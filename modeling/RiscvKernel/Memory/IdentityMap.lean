import RiscvKernel.Memory.Boot
import RiscvKernel.Memory.UserSpace

/-!
# The kernel's own page table

What `mmu_init` maps: the timer, the serial port and the RAM, each page to itself, and nothing else
(`mmuInit_identity`). So the kernel goes on at the same addresses when its table is put to use, and
user mode can reach nothing through it.
-/

namespace RiscvKernel

open ByteMemory RadixTable EntryFormat

/-- The flags with which `mmu_init` maps the page of an address, if it does. -/
def identityFlags (a : ℕ) : Option Word :=
  if (0x2000000 ≤ a ∧ a < 0x2010000) ∨ (0x10000000 ≤ a ∧ a < 0x10001000) then
    some (pteR ||| pteW ||| pteV)
  else if 0x80000000 ≤ a ∧ a < ramEnd then some (pteR ||| pteW ||| pteX ||| pteV)
  else none

/-- A page that is mapped to itself. -/
structure Identity (x : Mapping) : Prop where
  ok : x.Ok
  frame : x.frame = x.va.toNat
  low : x.va.toNat < 2 ^ 38
  flags : identityFlags x.va.toNat = some x.flags

variable {s s' : Phys} {root a lo hi : ℕ} {maps : List Mapping} {used : Multiset ℕ}
  {free : List ℕ} {x : Mapping} {flags va e : Word}

/-- All addresses of a page have the same flags. -/
theorem identityFlags_page (a : ℕ) : identityFlags (a / 4096 * 4096) = identityFlags a := by
  have hram : ramEnd = 0x88000000 := rfl
  rw [identityFlags, identityFlags]
  refine if_congr ?_ rfl (if_congr ?_ rfl rfl)
  · omega
  · omega

/-- The mappings of RAM and of the devices are mappings of supervisor pages. -/
theorem identityFlags_not_user (h : identityFlags a = some flags) :
    (flags ||| pteA ||| pteD) &&& pteU = 0 := by
  rw [identityFlags] at h
  split_ifs at h
  · obtain rfl := Option.some.inj h
    decide
  · obtain rfl := Option.some.inj h
    decide

theorem Identity.of_page (hal : PageAligned a) (hpos : 0 < a) (hlt : a < ramEnd)
    (hflags : flags.toNat < 2 ^ 10) (hv : flags &&& pteV ≠ 0) (hid : identityFlags a = some flags) :
    Identity ⟨BitVec.ofNat 64 a, a, flags⟩ := by
  have hram : ramEnd = 0x88000000 := rfl
  have htoNat : (BitVec.ofNat 64 a).toNat = a := by
    rw [BitVec.toNat_ofNat]
    omega
  refine ⟨⟨⟨hal, hpos, (by omega : a < 2 ^ 56)⟩, hflags, hv⟩, htoNat.symm, ?_, ?_⟩
  · rw [htoNat]
    omega
  · rw [htoNat]
    exact hid

/-- The mapping has the leaf entry of an address if it is the mapping of its page. -/
theorem Identity.at_iff (h : Identity x) (va : Word) :
    x.At (getVpn va) ↔ x.va.toNat = va.toNat % 2 ^ 39 / 4096 * 4096 := by
  have hal : x.va.toNat % 4096 = 0 := h.frame ▸ h.ok.isPage.aligned
  have hlow := h.low
  rw [Mapping.at_getVpn, leafSlot, leafSlot, Prod.mk.injEq, Prod.mk.injEq]
  simp only [getVpn_eq]
  omega

theorem mem_rangePages_of_le (hlo : PageAligned lo) (hal : PageAligned a) (hle : lo ≤ a)
    (hlt : a < hi) : BitVec.ofNat 64 a ∈ rangePages lo hi := by
  rw [PageAligned] at hlo hal
  rw [rangePages, List.mem_reverse, List.mem_map]
  refine ⟨(a - lo) / 4096, ?_, ?_⟩
  · rw [List.mem_range]
    omega
  · congr 1
    omega

/-! ### The loops -/

/-- A loop of `mmu_init` maps the pages of a range to themselves. -/
theorem identityRange_spec (lo hi : ℕ) (h : Building ramEnd s root maps used free)
    (hal : PageAligned lo) (hpos : 0 < lo) (hhi : hi ≤ ramEnd) (hflags : flags.toNat < 2 ^ 10)
    (hv : flags &&& pteV ≠ 0)
    (hid : ∀ a, lo ≤ a → a < hi → identityFlags a = some flags) :
    Outcome True
      (fun s' => ∃ added taken free', added.map Mapping.va = rangePages lo hi ∧
        (∀ x ∈ added, Identity x) ∧
        Extended ramEnd s s' root maps added used free taken free')
      (forPages (fun s p =>
          mapPage root (BitVec.ofNat 64 p) (BitVec.ofNat 64 p) flags s) lo hi s) := by
  refine (extended_forPages (Q := fun _ x => Identity x) (fun _ _ _ _ => id) h ?_).mono
    (fun _ => trivial) ?_
  · intro i hi' t maps used rest _ hbuilding
    -- a turn of the loop maps the page that it has come to
    have hal' : PageAligned (lo + 4096 * i) := by
      rw [PageAligned] at hal ⊢
      omega
    have hidentity := Identity.of_page hal' (by omega) (by omega) hflags hv (hid _ (by omega) hi')
    have hframe : lo + 4096 * i < ramEnd := by omega
    refine (Building.mapPage hbuilding hidentity.ok hframe).mono (fun hstuck => by omega) ?_
    rintro t' ⟨taken, free', hlen, hext⟩
    exact ⟨_, taken, free', rfl, hidentity, by omega, hext⟩
  · rintro s' ⟨added, taken, free', hvas, hall, -, hext⟩
    exact ⟨added, taken, free', hvas, hall, hext⟩

/-- The mappings that `mmu_init` makes: one of each page that has flags, and no others. -/
theorem mmuInit_built (hf : FreePages s free) :
    Outcome True
      (fun r => IsPage r.1 ∧ ∃ maps used, Built ramEnd r.2.mem r.1 maps used ∧
        (∀ x ∈ maps, Identity x) ∧
        ∀ a, PageAligned a → identityFlags a ≠ none → BitVec.ofNat 64 a ∈ maps.map Mapping.va)
      (mmuInit s) := by
  have hram : ramEnd = 0x88000000 := rfl
  -- the page of the root table, which is empty at first
  refine ((allocPage_spec hf).mono (fun _ => trivial) fun _ h => h).bind ?_
  rintro ⟨root, t⟩ ⟨free₀, hfree, hf', -, hz⟩
  change free = root :: free₀ at hfree
  have hroot : IsPage root := hf.isPage _ (hfree ▸ List.mem_cons_self)
  have hnd : ((free₀ : Multiset ℕ) + {root}).Nodup := by
    rw [add_comm, Multiset.singleton_add, Multiset.cons_coe, ← hfree]
    exact hf.nodup
  have hstart : Building ramEnd t root [] {root} free₀ :=
    ⟨Built.of_cleared hroot.aligned hz, hf', hnd⟩
  -- the timer
  refine (identityRange_spec 0x2000000 0x2010000 hstart (by decide) (by decide) (by decide)
    (by decide) (by decide) fun a hlo hhi => ?_).bind ?_
  · rw [identityFlags, if_pos (Or.inl ⟨hlo, hhi⟩)]
  rintro u ⟨timer, taken₁, free₁, hvas₁, htimer, hext₁⟩
  -- the serial port
  have huart : Identity ⟨BitVec.ofNat 64 0x10000000, 0x10000000, pteR ||| pteW ||| pteV⟩ :=
    Identity.of_page (by decide) (by decide) (by decide) (by decide) (by decide) (by decide)
  refine ((hext₁.building.mapPage huart.ok (by decide)).mono (fun _ => trivial)
    fun _ h => h).bind ?_
  rintro v ⟨taken₂, free₂, -, hext₂⟩
  -- the memory
  refine (identityRange_spec 0x80000000 (0x80000000 + 128 * 1024 * 1024) hext₂.building
    (by decide) (by decide) (by decide) (by decide) (by decide) fun a hlo hhi => ?_).bind ?_
  · rw [identityFlags, if_neg (by omega), if_pos ⟨hlo, by omega⟩]
  rintro w ⟨ram, taken₃, free₃, hvas₃, hram', hext₃⟩
  refine ⟨hroot, _, _, hext₃.building.built, ?_, ?_⟩
  · intro x hx
    simp only [List.mem_append, List.mem_singleton, List.not_mem_nil, or_false] at hx
    rcases hx with hx | rfl | hx
    · exact hram' x hx
    · exact huart
    · exact htimer x hx
  · intro a hal hid
    rw [identityFlags] at hid
    simp only [List.map_append, List.map_cons, List.map_nil, List.append_nil, List.mem_append,
      hvas₁, hvas₃]
    split_ifs at hid with hdevice hmem
    · rcases hdevice with ⟨hlo, hhi⟩ | ⟨hlo, hhi⟩
      · exact Or.inr (Or.inr (mem_rangePages_of_le (by decide) hal hlo hhi))
      · refine Or.inr (Or.inl (List.mem_singleton.mpr ?_))
        rw [PageAligned] at hal
        congr 1
        omega
    · exact Or.inl (mem_rangePages_of_le (by decide) hal hmem.1 (by omega))
    · exact absurd rfl hid

/-! ### The table -/

/-- The table in `satp` maps the timer, the serial port and the RAM, each page to itself with its
flags, and nothing else: an address that is mapped leads to itself, and user mode can reach
nothing. -/
def IdentityMapped (m : Mem) (satp : Word) : Prop :=
  ∀ va, leafEntry m (mmuSatpToPgd satp) va
      = ((identityFlags (va.toNat % 2 ^ 39)).map fun flags =>
          paToPte (BitVec.ofNat 64 (va.toNat % 2 ^ 39 / 4096 * 4096)) (flags ||| pteA ||| pteD)) ∧
    ∀ e, leafEntry m (mmuSatpToPgd satp) va = some e →
      physAddr e va = va.toNat % 2 ^ 39 ∧ e &&& pteU = 0

theorem identityMapped_of_mmuInit (hf : FreePages s free) (h : mmuInit s = some (root, s')) :
    IdentityMapped s'.mem (mmuMakeSatp root) := by
  intro va
  obtain ⟨hroot, maps, used, hbuilt, hall, hmapped⟩ := (mmuInit_built hf).post_of_eq_some h
  dsimp only at hroot hbuilt
  have hleaf := hbuilt.leafAt _ (getVpn_lt va)
  rw [mmuSatpToPgd_mmuMakeSatp hroot]
  rw [← leafEntry] at hleaf
  rw [hleaf]
  have hsplit : va.toNat % 2 ^ 39 / 4096 * 4096 + va.toNat % 4096 = va.toNat % 2 ^ 39 := by omega
  set page := va.toNat % 2 ^ 39 / 4096 * 4096 with hpage
  rw [← identityFlags_page, ← hpage]
  -- a mapping with the leaf entry of the address is that of its page
  have hentry : ∀ e, leafOf maps (getVpn va) = some e → ∃ x ∈ maps, Identity x ∧
      x.va.toNat = page ∧ e = x.entry := by
    intro e he
    obtain ⟨x, hx, hat, rfl⟩ := exists_of_leafOf he
    exact ⟨x, hx, hall x hx, ((hall x hx).at_iff va).mp hat, rfl⟩
  constructor
  · cases hcases : leafOf maps (getVpn va) with
    | some e =>
      obtain ⟨x, -, hx, hva, rfl⟩ := hentry e hcases
      rw [← hva, hx.flags, Option.map_some, Mapping.entry, hx.frame]
    | none =>
      -- there is a mapping of every page that has flags
      cases hflags : identityFlags page with
      | none => rfl
      | some flags =>
        have hal : PageAligned page := Nat.mul_mod_left _ _
        obtain ⟨x, hx, hva⟩ := List.mem_map.mp (hmapped page hal (by simp [hflags]))
        refine absurd hcases (leafOf_ne_none hx (((hall x hx).at_iff va).mpr ?_))
        rw [hva, BitVec.toNat_ofNat, ← hpage]
        omega
  · intro e he
    obtain ⟨x, -, hx, hva, rfl⟩ := hentry e he
    constructor
    · rw [physAddr, hx.ok.pteToPa_entry, hx.frame, hva, hsplit]
    · rw [Mapping.entry, paToPte_and _ _ (by decide)]
      exact identityFlags_not_user hx.flags

/-- With at least 133 free pages `mmu_init` returns, and when it returns the kernel's own page table
is the identity map. -/
theorem mmuInit_identity (hf : FreePages s free) :
    (133 ≤ free.length → mmuInit s ≠ none) ∧
      ∀ root s', mmuInit s = some (root, s') → IdentityMapped s'.mem (mmuMakeSatp root) := by
  refine ⟨fun henough hnone => ?_, fun root s' h => identityMapped_of_mmuInit hf h⟩
  obtain ⟨r, hr, -⟩ := (mmuInit_spec hf).exists_of_not_stuck (by omega)
  rw [hnone] at hr
  cases hr

/-- The table of a kernel with one MiB of memory of its own. -/
theorem exists_mmuInit_identity : ∃ (s s' : Phys) (root : ℕ), mmuInit s = some (root, s') ∧
    leafEntry s'.mem (mmuSatpToPgd (mmuMakeSatp root)) 0x80000123#64
      = some (paToPte 0x80000000#64 0xCF#64) ∧
    leafEntry s'.mem (mmuSatpToPgd (mmuMakeSatp root)) 0x40000000#64 = none := by
  have hpos : 0 < 0x80100000 := by decide
  obtain ⟨s, free, -, hf, hfree, -⟩ := pageInit_pages hpos (by decide) fun _ => 0
  have hlength : free.length = 32512 := by
    rw [← Multiset.coe_card, hfree, pagesFrom, Multiset.card_map, Multiset.card_range]
    decide +kernel
  obtain ⟨hreturns, hmapped⟩ := mmuInit_identity hf
  obtain ⟨⟨root, s'⟩, hinit⟩ := Option.ne_none_iff_exists'.mp (hreturns (by omega))
  refine ⟨s, s', root, hinit, ?_, ?_⟩
  · rw [(hmapped root s' hinit _).1]
    decide +kernel
  · rw [(hmapped root s' hinit _).1]
    decide +kernel

end RiscvKernel
