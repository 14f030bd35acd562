import RiscvKernel.Layout
import RiscvKernel.Memory.Build

/-!
# The address space of a new task

The addresses of `kernel/user_layout.h` and the functions of `kernel/task.c` that fill the page
table of a task that has not loaded an image yet: the kernel's own text and read-only data, the
stack page, and two data pages.

`initUserAddressSpace_spec` says what the table leads to and which pages it owns.
-/

namespace RiscvKernel

open ByteMemory RadixTable EntryFormat

/-! ### Addresses -/

/-- `USER_RW_PAGE_VA`. -/
def userRwPageVa : Word := 0x40000000#64

/-- `USER_STACK_TOP`. -/
def userStackTop : Word := 0x40100000#64

/-- `USER_STACK_PAGE_VA`. -/
def userStackPageVa : Word := userStackTop - 4096#64

/-- `USER_STACK_GUARD_VA`. -/
def userStackGuardVa : Word := userStackTop - 2#64 * 4096#64

/-- `USER_RO_PAGE_VA`. -/
def userRoPageVa : Word := 0x50000000#64

/-! ### The functions -/

/-- `map_range`: map the pages of a range to themselves. -/
def mapRange (pgd : ℕ) (start stop flags : Word) (s : Phys) : Option Phys :=
  forPages (fun s va => mapPage pgd (BitVec.ofNat 64 va) (BitVec.ofNat 64 va) flags s)
    (start &&& ~~~ 0xFFF#64).toNat ((stop + 4096#64 - 1#64) &&& ~~~ 0xFFF#64).toNat s

variable {n : ℕ}

/-- `map_boot_user_text`. -/
def mapBootUserText (L : Layout n) (pgd : ℕ) (s : Phys) : Option Phys :=
  (mapRange pgd (BitVec.ofNat 64 textStart) (BitVec.ofNat 64 L.textEnd)
    (pteR ||| pteX ||| pteU ||| pteV) s).bind fun s =>
  mapRange pgd (BitVec.ofNat 64 L.textEnd) (BitVec.ofNat 64 L.rodataEnd)
    (pteR ||| pteU ||| pteV) s

/-- `map_user_stack`, of `task.c` and of `exec.c`. -/
def mapUserStack (pgd stackPa : ℕ) (s : Phys) : Option Phys :=
  mapPage pgd userStackPageVa (BitVec.ofNat 64 stackPa) (pteR ||| pteW ||| pteU ||| pteV) s

/-- The call `map_page(pgd, va, (uint64_t)alloc_page(), flags)`. -/
def mapNewPage (pgd : ℕ) (va flags : Word) (s : Phys) : Option Phys :=
  (allocPage s).bind fun (page, s) => mapPage pgd va (BitVec.ofNat 64 page) flags s

/-- `map_boot_user_data`. -/
def mapBootUserData (pgd : ℕ) (s : Phys) : Option Phys :=
  (mapNewPage pgd userRwPageVa (pteR ||| pteW ||| pteU ||| pteV) s).bind fun s =>
  mapNewPage pgd userRoPageVa (pteR ||| pteU ||| pteV) s

/-- `init_user_address_space`. -/
def initUserAddressSpace (L : Layout n) (pgd stackPa : ℕ) (s : Phys) : Option Phys :=
  (mapBootUserText L pgd s).bind fun s =>
  (mapUserStack pgd stackPa s).bind fun s =>
  mapBootUserData pgd s

/-! ### What the functions build -/

/-- What a leaf entry of a task may lead to: a page outside the kernel image or, without
`PTE_W`, a page of the kernel's text or read-only data. -/
def LeafOk (L : Layout n) (e : Word) : Prop :=
  L.kernelEnd ≤ (pteToPa e).toNat ∨
    (textStart ≤ (pteToPa e).toNat ∧ (pteToPa e).toNat < L.rodataEnd ∧ e &&& pteW = 0)

variable {L : Layout n} {x : Mapping} {maps : List Mapping} {used : Multiset ℕ} {free : List ℕ}
  {pgd start stop : ℕ} {s : Phys} {flags : Word}

theorem Mapping.Ok.pteToPa_entry (h : x.Ok) : (pteToPa x.entry).toNat = x.frame := by
  apply pteToPa_paToPte h.isPage.aligned h.isPage.lt
  exact or_toNat_lt (or_toNat_lt h.flags_lt (by decide)) (by decide)

/-- A permission bit of the entry is that of the call. -/
theorem Mapping.entry_and (x : Mapping) {bit : Word} (hlow : bit &&& 0x3FF#64 = bit)
    (hA : pteA &&& bit = 0#64) (hD : pteD &&& bit = 0#64) :
    x.entry &&& bit = x.flags &&& bit := by
  rw [Mapping.entry, paToPte_and _ _ hlow, BitVec.and_or_distrib_right,
    BitVec.and_or_distrib_right]
  simp [hA, hD]

/-- A mapping of a new task: a page address in the lower half, and an allowed entry. -/
structure UserMapping (L : Layout n) (x : Mapping) : Prop where
  ok : x.Ok
  leafOk : LeafOk L x.entry
  aligned : x.va.toNat % 4096 = 0
  low : x.va.toNat < 2 ^ 38

/-- The flags of the pages of a new task. -/
def bootFlags (L : Layout n) (va : Word) : Word :=
  if textStart ≤ va.toNat ∧ va.toNat < L.textEnd then pteR ||| pteX ||| pteU ||| pteV
  else if L.textEnd ≤ va.toNat ∨ va = userRoPageVa then pteR ||| pteU ||| pteV
  else pteR ||| pteW ||| pteU ||| pteV

/-- What a new task finds in a page: the text or the read-only data of the kernel, or nothing but
zeros. -/
def BootPage (L : Layout n) (m : Mem) (x : Mapping) : Prop :=
  x.flags = bootFlags L x.va ∧
    if textStart ≤ x.va.toNat then x.frame = x.va.toNat
    else L.kernelEnd ≤ x.frame ∧ ∀ b < 4096, m (x.frame + b) = 0

theorem frameLocal_bootPage (L : Layout n) : FrameLocal L.kernelEnd (BootPage L) := by
  rintro m m' x hframe ⟨hflags, hpage⟩
  refine ⟨hflags, ?_⟩
  split_ifs at hpage ⊢
  · exact hpage
  · refine ⟨hpage.1, fun b hb => ?_⟩
    rw [hframe hpage.1 b hb, hpage.2 b hb]

/-- A page of the task's own, below the kernel. -/
theorem BootPage.of_zero {m : Mem} (hva : x.va.toNat < textStart)
    (hflags : x.flags = if x.va = userRoPageVa then pteR ||| pteU ||| pteV
      else pteR ||| pteW ||| pteU ||| pteV)
    (hge : L.kernelEnd ≤ x.frame) (hz : ∀ b < 4096, m (x.frame + b) = 0) : BootPage L m x := by
  have htext := L.text_le
  refine ⟨?_, ?_⟩
  · rw [bootFlags, if_neg (by omega), hflags]
    refine if_congr ⟨Or.inr, fun h => h.resolve_left (by omega)⟩ rfl rfl
  · rw [if_neg (by omega)]
    exact ⟨hge, hz⟩

theorem UserMapping.of_frame (h : x.Ok) (hframe : L.kernelEnd ≤ x.frame)
    (hal : x.va.toNat % 4096 = 0) (hlow : x.va.toNat < 2 ^ 38) : UserMapping L x := by
  refine ⟨h, Or.inl ?_, hal, hlow⟩
  rwa [h.pteToPa_entry]

/-- Mappings of different addresses use different leaf entries. -/
theorem slotsDiffer_of_nodup (hmaps : ∀ x ∈ maps, UserMapping L x)
    (hnd : (maps.map Mapping.va).Nodup) : maps.Pairwise SlotsDiffer := by
  rw [List.Nodup, List.pairwise_map] at hnd
  refine hnd.imp_of_mem fun {x y} hx hy hne heq => hne ?_
  have hx' := hmaps x hx
  have hy' := hmaps y hy
  exact eq_of_leafSlot_eq ((canonical_iff _).mpr (Or.inl hx'.low))
    ((canonical_iff _).mpr (Or.inl hy'.low)) hx'.aligned hy'.aligned heq

/-- The page addresses from `start` up to `stop`, the last one first. -/
def rangePages (start stop : ℕ) : List Word :=
  ((List.range ((stop - start + 4095) / 4096)).map fun k =>
    BitVec.ofNat 64 (start + 4096 * k)).reverse

theorem mem_rangePages {va : Word} (hstop : stop < 2 ^ 64) (h : va ∈ rangePages start stop) :
    start ≤ va.toNat ∧ va.toNat < stop := by
  rw [rangePages, List.mem_reverse, List.mem_map] at h
  obtain ⟨k, hk, rfl⟩ := h
  rw [List.mem_range] at hk
  rw [BitVec.toNat_ofNat]
  omega

theorem nodup_rangePages (hstop : stop < 2 ^ 64) : (rangePages start stop).Nodup := by
  rw [rangePages, List.nodup_reverse, List.Nodup, List.pairwise_map]
  refine List.pairwise_lt_range.imp_of_mem ?_
  intro j k hj hk hjk heq
  rw [List.mem_range] at hj hk
  have hnat := congrArg BitVec.toNat heq
  rw [BitVec.toNat_ofNat, BitVec.toNat_ofNat] at hnat
  omega

/-- A page of the kernel's text or read-only data, mapped to itself without `PTE_W`. -/
theorem userMapping_of_text {p : ℕ} (hp : PageAligned p) (hlo : textStart ≤ p)
    (hhi : p < L.rodataEnd) (hflags : flags.toNat < 2 ^ 10) (hv : flags &&& pteV ≠ 0)
    (hw : flags &&& pteW = 0) : UserMapping L ⟨BitVec.ofNat 64 p, p, flags⟩ := by
  have htext : textStart = 0x80000000 := rfl
  have hram : ramEnd = 0x88000000 := rfl
  have hrodata := L.rodataEnd_le
  have htoNat : (BitVec.ofNat 64 p).toNat = p := by
    rw [BitVec.toNat_ofNat]
    omega
  have hpage : IsPage p := ⟨hp, by omega, by omega⟩
  have hok : (⟨BitVec.ofNat 64 p, p, flags⟩ : Mapping).Ok := ⟨hpage, hflags, hv⟩
  refine ⟨hok, Or.inr ?_, ?_, ?_⟩
  · rw [hok.pteToPa_entry, Mapping.entry_and _ (by decide) (by decide) (by decide)]
    exact ⟨hlo, hhi, hw⟩
  · rw [htoNat]
    exact hp
  · rw [htoNat]
    omega

/-- `map_range` maps the pages of the kernel's text and read-only data to themselves. -/
theorem mapRange_spec (h : Building L.kernelEnd s pgd maps used free)
    (hflags : flags.toNat < 2 ^ 10) (hv : flags &&& pteV ≠ 0) (hw : flags &&& pteW = 0)
    (hstart : PageAligned start) (hstop : PageAligned stop) (hlo : textStart ≤ start)
    (hle : start ≤ stop) (hhi : stop ≤ L.rodataEnd) :
    Outcome (free.length < 3 * ((stop - start + 4095) / 4096))
      (fun s' => ∃ added taken free', added.map Mapping.va = rangePages start stop ∧
        (∀ x ∈ added, UserMapping L x ∧ x.frame = x.va.toNat ∧ x.flags = flags) ∧
        taken.length ≤ 3 * ((stop - start + 4095) / 4096) ∧
        Extended L.kernelEnd s s' pgd maps added used free taken free')
      (mapRange pgd (BitVec.ofNat 64 start) (BitVec.ofNat 64 stop) flags s) := by
  have hram : ramEnd = 0x88000000 := rfl
  have hrodata := L.rodataEnd_le
  rw [PageAligned] at hstart hstop
  -- the bounds are page addresses already
  have hbegin : (BitVec.ofNat 64 start &&& ~~~ 0xFFF#64).toNat = start := by
    rw [toNat_and_not_fff, BitVec.toNat_ofNat]
    omega
  have hlimit : ((BitVec.ofNat 64 stop + 4096#64 - 1#64) &&& ~~~ 0xFFF#64).toNat = stop := by
    rw [toNat_and_not_fff, BitVec.toNat_sub, BitVec.toNat_add]
    simp only [BitVec.toNat_ofNat]
    omega
  rw [mapRange, hbegin, hlimit]
  refine extended_forPages
    (Q := fun _ x => UserMapping L x ∧ x.frame = x.va.toNat ∧ x.flags = flags)
    (fun _ _ _ _ => id) h ?_
  intro k hk t maps' used' rest hrest hbuilding
  have hal : PageAligned (start + 4096 * k) := by
    rw [PageAligned]
    omega
  have huser := userMapping_of_text (L := L) hal (by omega) (by omega) hflags hv hw
  have hframe : start + 4096 * k < L.kernelEnd := by
    have := L.rodataEnd_le_kernelEnd
    omega
  have hself : start + 4096 * k = (BitVec.ofNat 64 (start + 4096 * k)).toNat := by
    rw [BitVec.toNat_ofNat]
    omega
  refine (Building.mapPage hbuilding huser.ok hframe).mono (fun hstuck => by omega) ?_
  rintro t' ⟨taken, free', hlen, hext⟩
  exact ⟨_, taken, free', rfl, ⟨huser, hself, rfl⟩, by omega, hext⟩

/-- `map_page` of a page just allocated. -/
theorem mapNewPage_spec {va : Word} (h : Building L.kernelEnd s pgd maps used free)
    (hfree : ∀ q ∈ free, L.kernelEnd ≤ q) (hflags : flags.toNat < 2 ^ 10)
    (hv : flags &&& pteV ≠ 0) (hal : va.toNat % 4096 = 0) (hlow : va.toNat < 2 ^ 38) :
    Outcome (free.length < 3)
      (fun s' => ∃ x taken free', x.va = va ∧ UserMapping L x ∧
        (x.flags = flags ∧ L.kernelEnd ≤ x.frame ∧ ∀ b < 4096, s'.mem (x.frame + b) = 0) ∧
        taken.length ≤ 3 ∧ Extended L.kernelEnd s s' pgd maps [x] used free taken free')
      (mapNewPage pgd va flags s) := by
  refine ((allocPage_spec h.isFree).mono (fun hstuck => by omega) fun _ h => h).bind ?_
  rintro ⟨page, t⟩ ⟨free', rfl, hf, hoff, hz⟩
  set x : Mapping := ⟨va, page, flags⟩ with hx
  have hok : x.Ok := ⟨h.isFree.isPage _ List.mem_cons_self, hflags, hv⟩
  have hframe : L.kernelEnd ≤ x.frame := hfree _ List.mem_cons_self
  refine (Building.mapFrame h hf hoff hok hframe).mono ?_ ?_
  · intro hstuck
    rw [List.length_cons]
    omega
  · rintro s' ⟨taken, free'', hlen, hkept, hext⟩
    refine ⟨x, taken, free'', rfl, UserMapping.of_frame hok hframe hal hlow,
      ⟨rfl, hframe, fun b hb => ?_⟩, hlen, hext⟩
    rw [hkept b hb]
    exact hz b hb

/-- How many pages `init_user_address_space` takes at most, the page table and the stack page
not counted. -/
def Layout.initPages (L : Layout n) : ℕ := 3 * ((L.rodataEnd - textStart) / 4096) + 8

/-- `map_boot_user_text` maps the kernel's text and read-only data. -/
theorem mapBootUserText_spec (h : Building L.kernelEnd s pgd maps used free) :
    Outcome (free.length + 8 < L.initPages)
      (fun s' => ∃ added taken free', added.map Mapping.va
          = rangePages L.textEnd L.rodataEnd ++ rangePages textStart L.textEnd ∧
        (∀ x ∈ added, UserMapping L x ∧ ∀ m, BootPage L m x) ∧ taken.length + 8 ≤ L.initPages ∧
        Extended L.kernelEnd s s' pgd maps added used free taken free')
      (mapBootUserText L pgd s) := by
  have hal := L.textEnd_aligned
  have hal' := L.rodataEnd_aligned
  have hstart : PageAligned textStart := by decide
  have htext := L.text_le
  have hrodata := L.rodata_le
  have hcost : 3 * ((L.textEnd - textStart + 4095) / 4096)
      + 3 * ((L.rodataEnd - L.textEnd + 4095) / 4096) + 8 = L.initPages := by
    rw [Layout.initPages]
    rw [PageAligned] at hal hal' hstart
    omega
  -- first the text, then the read-only data
  refine ((mapRange_spec h (by decide) (by decide) (by decide) hstart hal le_rfl htext hrodata).mono
    (fun hstuck => by omega) fun _ h => h).bind ?_
  rintro t ⟨added, taken, free', hvas, huser, hlen, hext⟩
  have hlength : free.length = taken.length + free'.length := by
    rw [hext.free_eq, List.length_append]
  refine (mapRange_spec hext.building (by decide) (by decide) (by decide) hal hal' htext hrodata
    le_rfl).mono (fun hstuck => by omega) ?_
  rintro s' ⟨added', taken', free'', hvas', huser', hlen', hext'⟩
  -- the flags of a page depend on the range it was mapped for
  have hrange : ∀ (ys : List Mapping) (start stop : ℕ), ys.map Mapping.va = rangePages start stop →
      stop ≤ L.rodataEnd → ∀ y ∈ ys, start ≤ y.va.toNat ∧ y.va.toNat < stop := by
    intro ys start stop hvas hle y hy
    have hlt := L.rodataEnd_le
    have hram : ramEnd = 0x88000000 := rfl
    refine mem_rangePages (by omega) ?_
    rw [← hvas]
    exact List.mem_map_of_mem hy
  refine ⟨added' ++ added, taken ++ taken', free'', ?_, ?_, ?_, hext.trans hext'⟩
  · rw [List.map_append, hvas, hvas']
  · intro x hx
    rcases List.mem_append.mp hx with hx | hx
    · obtain ⟨hmapping, hframe, hflags⟩ := huser' x hx
      have hva := hrange added' _ _ hvas' le_rfl x hx
      refine ⟨hmapping, fun m => ⟨?_, ?_⟩⟩
      · rw [bootFlags, if_neg (by omega), if_pos (Or.inl hva.1), hflags]
      · rwa [if_pos (by omega)]
    · obtain ⟨hmapping, hframe, hflags⟩ := huser x hx
      have hva := hrange added _ _ hvas hrodata x hx
      refine ⟨hmapping, fun m => ⟨?_, ?_⟩⟩
      · rw [bootFlags, if_pos hva, hflags]
      · rwa [if_pos hva.1]
  · rw [List.length_append]
    omega

/-- `map_boot_user_data` maps two new pages. -/
theorem mapBootUserData_spec (h : Building L.kernelEnd s pgd maps used free)
    (hfree : ∀ q ∈ free, L.kernelEnd ≤ q) :
    Outcome (free.length < 6)
      (fun s' => ∃ added taken free', added.map Mapping.va = [userRoPageVa, userRwPageVa] ∧
        (∀ x ∈ added, UserMapping L x ∧ BootPage L s'.mem x) ∧ taken.length ≤ 6 ∧
        Extended L.kernelEnd s s' pgd maps added used free taken free')
      (mapBootUserData pgd s) := by
  refine ((mapNewPage_spec h hfree (by decide) (by decide) (by decide) (by decide)).mono
    (fun hstuck => by omega) fun _ h => h).bind ?_
  rintro t ⟨x, taken, free', hva, huser, ⟨hflags, hge, hz⟩, hlen, hext⟩
  have hlength : free.length = taken.length + free'.length := by
    rw [hext.free_eq, List.length_append]
  have hx : BootPage L t.mem x := by
    refine BootPage.of_zero ?_ ?_ hge hz
    · rw [hva]
      decide
    · rw [hva, hflags]
      decide
  refine (mapNewPage_spec hext.building (fun q hq => hfree q (hext.mem_free q hq)) (by decide)
    (by decide) (by decide) (by decide)).mono (fun hstuck => by omega) ?_
  rintro s' ⟨y, taken', free'', hva', huser', ⟨hflags', hge', hz'⟩, hlen', hext'⟩
  -- mapping the second page leaves the first one as it was
  have hx' := hext'.keep hext.building (frameLocal_bootPage L) (by simp) hx
  have hy : BootPage L s'.mem y := by
    refine BootPage.of_zero ?_ ?_ hge' hz'
    · rw [hva']
      decide
    · rw [hva', hflags']
      decide
  refine ⟨[y] ++ [x], taken ++ taken', free'', ?_, ?_, ?_, hext.trans hext'⟩
  · simp [hva, hva']
  · simp [huser, huser', hx', hy]
  · rw [List.length_append]
    omega

/-- A page table as `init_user_address_space` leaves it, built out of the pages `used`. -/
structure InitialSpace (L : Layout n) (m : Mem) (pgd stackPa : ℕ) (maps : List Mapping)
    (used : Multiset ℕ) : Prop where
  built : Built L.kernelEnd m pgd maps used
  user : ∀ x ∈ maps, UserMapping L x
  vas : maps.map Mapping.va = [userRoPageVa, userRwPageVa] ++ userStackPageVa ::
    (rangePages L.textEnd L.rodataEnd ++ rangePages textStart L.textEnd)
  stack : ∃ x ∈ maps, x.va = userStackPageVa ∧ x.frame = stackPa ∧
    x.flags = pteR ||| pteW ||| pteU ||| pteV

/-- A page table as `init_user_address_space` leaves it, with what its pages hold. -/
def BootMapped (L : Layout n) (m : Mem) (pgd : ℕ) : Prop :=
  ∃ stackPa maps used, InitialSpace L m pgd stackPa maps used ∧ ∀ x ∈ maps, BootPage L m x

/-- The addresses a new task has mapped are all different. -/
theorem nodup_initialPages (L : Layout n) :
    ([userRoPageVa, userRwPageVa] ++ userStackPageVa :: (rangePages L.textEnd L.rodataEnd
      ++ rangePages textStart L.textEnd)).Nodup := by
  have hram : ramEnd = 0x88000000 := rfl
  have hends := L.rodataEnd_le
  have htext := L.text_le
  have hrodata := L.rodata_le
  have hkernel : (rangePages L.textEnd L.rodataEnd ++ rangePages textStart L.textEnd).Nodup := by
    rw [List.nodup_append]
    refine ⟨nodup_rangePages (by omega), nodup_rangePages (by omega), ?_⟩
    rintro a ha b hb rfl
    have := mem_rangePages (by omega) ha
    have := mem_rangePages (by omega) hb
    omega
  -- the three pages of the task's own lie below the kernel image
  have hlow : ∀ va : Word, va.toNat < textStart →
      va ∉ rangePages L.textEnd L.rodataEnd ++ rangePages textStart L.textEnd := by
    intro va hva hmem
    rcases List.mem_append.mp hmem with hmem | hmem
    · have := mem_rangePages (by omega) hmem
      omega
    · have := mem_rangePages (by omega) hmem
      omega
  rw [List.cons_append, List.cons_append, List.nil_append, List.nodup_cons, List.nodup_cons,
    List.nodup_cons]
  refine ⟨?_, ?_, hlow _ (by decide), hkernel⟩
  · rw [List.mem_cons, List.mem_cons, not_or, not_or]
    exact ⟨by decide, by decide, hlow _ (by decide)⟩
  · rw [List.mem_cons, not_or]
    exact ⟨by decide, hlow _ (by decide)⟩

namespace InitialSpace

variable {m : Mem} {stackPa : ℕ}

theorem slotsDiffer (h : InitialSpace L m pgd stackPa maps used) : maps.Pairwise SlotsDiffer := by
  refine slotsDiffer_of_nodup h.user ?_
  rw [h.vas]
  exact nodup_initialPages L

/-- The pages of a new address space, those of the kernel's text and read-only data included. -/
theorem card_pages (h : InitialSpace L m pgd stackPa maps used) :
    (sv39.pages m 3 pgd).card ≤ used.card + L.initPages := by
  have hcard := h.built.card_pages
  have hlen := congrArg List.length h.vas
  have hal := L.textEnd_aligned
  have hal' := L.rodataEnd_aligned
  have hstart : textStart % 4096 = 0 := by decide
  have htext := L.text_le
  have hrodata := L.rodata_le
  simp only [rangePages, List.length_map, List.length_append, List.length_cons, List.length_nil,
    List.length_reverse, List.length_range] at hlen
  rw [PageAligned] at hal hal'
  rw [Layout.initPages]
  omega

end InitialSpace

/-- `init_user_address_space` fills an empty page table. -/
theorem initUserAddressSpace_spec {stackPa : ℕ} (h : Building L.kernelEnd s pgd [] {pgd} free)
    (hfree : ∀ q ∈ free, L.kernelEnd ≤ q) (hstack : IsPage stackPa)
    (hstackGe : L.kernelEnd ≤ stackPa) (hnotFree : stackPa ∉ free) (hne : stackPa ≠ pgd)
    (hz : ∀ b < 4096, s.mem (stackPa + b) = 0) :
    Outcome (free.length < L.initPages)
      (fun s' => ∃ maps taken free', free = taken ++ free' ∧ taken.length ≤ L.initPages ∧
        FreePages s' free' ∧
        InitialSpace L s'.mem pgd stackPa maps ({pgd} + {stackPa} + ↑taken) ∧
        (∀ x ∈ maps, BootPage L s'.mem x) ∧ EqOff ({pgd} + {stackPa} + ↑taken) s.mem s'.mem)
      (initUserAddressSpace L pgd stackPa s) := by
  -- the kernel's text and read-only data
  refine ((mapBootUserText_spec h).mono (fun hstuck => by omega) fun _ h => h).bind ?_
  rintro t ⟨added, taken, free₁, hvas, huser, hlen, hext⟩
  have hlength : free.length = taken.length + free₁.length := by
    rw [hext.free_eq, List.length_append]
  -- the stack page, which was taken off the free list before
  set x : Mapping := ⟨userStackPageVa, stackPa, pteR ||| pteW ||| pteU ||| pteV⟩ with hx
  have hflags : (pteR ||| pteW ||| pteU ||| pteV).toNat < 2 ^ 10 := by decide
  have hvalid : (pteR ||| pteW ||| pteU ||| pteV) &&& pteV ≠ 0 := by decide
  have hxok : x.Ok := ⟨hstack, hflags, hvalid⟩
  have hpage : userStackPageVa.toNat % 4096 = 0 ∧ userStackPageVa.toNat < 2 ^ 38 := by decide
  have hxuser : UserMapping L x := UserMapping.of_frame hxok hstackGe hpage.1 hpage.2
  have hnotUsed : x.frame ∉ {pgd} + (taken : Multiset ℕ) := by
    rw [Multiset.mem_add, Multiset.mem_singleton, not_or]
    refine ⟨hne, fun hmem => hnotFree ?_⟩
    rw [hext.free_eq]
    exact List.mem_append_left _ hmem
  have hmap := Building.mapOwned hext.building hxok hstackGe
    (fun hmem => hnotFree (hext.mem_free _ hmem)) hnotUsed
  refine (hmap.mono (fun hstuck => by omega) fun _ h => h).bind ?_
  rintro u ⟨new, free₂, hfree₂, hlen₂, hbuilding, -, hoff⟩
  have hoff₂ := hext.eqOff_used h
  have hoff₃ : EqOff ({pgd} + ↑taken + ↑new) t.mem u.mem := by
    apply hoff.mono
    intro y hy
    rw [Multiset.mem_add] at hy ⊢
    exact hy.imp_left (Multiset.mem_of_le hext.building.built.tables_le)
  have hlength₂ : free₁.length = new.length + free₂.length := by
    rw [hfree₂, List.length_append]
  -- nothing is written to the stack page
  have hzero : ∀ b < 4096, u.mem (stackPa + b) = 0 := by
    intro b hb
    have hnotNew : stackPa ∉ {pgd} + (taken : Multiset ℕ) + ↑new := by
      rw [Multiset.mem_add, not_or]
      refine ⟨hnotUsed, fun hmem => hnotFree (hext.mem_free _ ?_)⟩
      rw [hfree₂]
      exact List.mem_append_left _ hmem
    rw [hoff₃.byte_eq hstack.aligned hb hnotNew, hoff₂.byte_eq hstack.aligned hb hnotUsed, hz b hb]
  have hbelow : userStackPageVa.toNat < textStart := by decide
  have hxboot : BootPage L u.mem x := BootPage.of_zero hbelow rfl hstackGe hzero
  have hmem₂ : ∀ q ∈ free₂, q ∈ free := by
    intro q hq
    apply hext.mem_free
    rw [hfree₂]
    exact List.mem_append_right _ hq
  -- the two data pages
  refine (mapBootUserData_spec hbuilding fun q hq => hfree q (hmem₂ q hq)).mono
    (fun hstuck => by omega) ?_
  rintro s' ⟨added', taken', free', hvas', huser', hlen', hext'⟩
  have hused : {pgd} + (taken : Multiset ℕ) + ↑new + {stackPa} + ↑taken'
      = {pgd} + {stackPa} + ↑(taken ++ (new ++ taken')) := by
    rw [← Multiset.coe_add, ← Multiset.coe_add]
    abel
  refine ⟨added' ++ x :: (added ++ []), taken ++ (new ++ taken'), free', ?_, ?_,
    hext'.building.isFree, ⟨?_, ?_, ?_, ?_⟩, ?_, ?_⟩
  · rw [hext.free_eq, hfree₂, hext'.free_eq]
    simp
  · rw [List.length_append, List.length_append]
    omega
  · rw [← hused]
    exact hext'.building.built
  · intro y hy
    rw [List.append_nil, List.mem_append, List.mem_cons] at hy
    rcases hy with hy | rfl | hy
    · exact (huser' y hy).1
    · exact hxuser
    · exact (huser y hy).1
  · rw [List.append_nil, List.map_append, List.map_cons, hvas, hvas']
  · exact ⟨x, by simp, rfl, rfl, rfl⟩
  · intro y hy
    rw [List.append_nil, List.mem_append, List.mem_cons] at hy
    rcases hy with hy | rfl | hy
    · exact (huser' y hy).2
    · exact hext'.keep hbuilding (frameLocal_bootPage L) List.mem_cons_self hxboot
    · exact (huser y hy).2 _
  · rw [← hused]
    have hleft : ∀ (A B : Multiset ℕ), ∀ y ∈ A, y ∈ A + B :=
      fun A B y hy => Multiset.mem_add.mpr (Or.inl hy)
    refine (hoff₂.mono fun y hy => ?_).trans_self
      ((hoff₃.mono fun y hy => ?_).trans_self (hext'.eqOff_used hbuilding))
    · exact hleft _ _ y (hleft _ _ y (hleft _ _ y hy))
    · exact hleft _ _ y (hleft _ _ y hy)

theorem twoSlots_card : twoSlots.managed.card = 32752 ∧ twoSlots.initPages = 23 := by
  rw [Layout.managed, Multiset.card_map, Multiset.card_range]
  decide

end RiscvKernel
