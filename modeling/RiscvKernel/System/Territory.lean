import RiscvKernel.Memory.Spaces
import RiscvKernel.System.Step

/-!
# What belongs to a task

The memory of a task is its context, its kernel stack with the trapframe, and the pages of its page
table (`territory`). `OnBehalf c s s'` says what the kernel may do on behalf of slot `c`: the page
tables stay as they should be and every other live task is spared.

* `OnBehalf.trans`: one action after another.
* `OnBehalf.of_spaces`: giving the slot another page table, or none.
* `OnBehalf.of_born`: giving a page table to a slot that was not in use.
* `OnBehalf.of_kernelWrite`: writing to the context and the kernel stack of the slot.
* `OnBehalf.of_store`: a store that misses the memory of the kernel.
-/

namespace RiscvKernel

open ByteMemory RadixTable Riscv

variable {n : ℕ}

/-- The slot is in use. -/
def Machine.Live (s : Machine n) (id : Fin n) : Prop := s.sched.taskStates id ≠ .dead

instance (s : Machine n) (id : Fin n) : Decidable (s.Live id) :=
  inferInstanceAs (Decidable (s.sched.taskStates id ≠ .dead))

variable (L : Layout n)

/-- The page tables of the live tasks. -/
def pgds (s : Machine n) : Fin n → Option ℕ :=
  fun id => if s.Live id then some (taskPageTable L s.mem id) else none

/-- The page tables of all tasks are as they should be, and contexts name them. -/
structure MemOk (fits : Prop) (s : Machine n) : Prop where
  spaces : ∃ free, Spaces L fits s.phys s.rootPageTable (pgds L s) free
  satp : ∀ id, s.Live id →
    contextLoad s.mem (L.context id) .satp = mmuMakeSatp (taskPageTable L s.mem id)

/-- The context and the kernel stack of a slot. -/
def kernelPart (id : Fin n) : Set ℕ := L.contextRange id ∪ L.stackRange id

/-- The pages of a task. -/
def ownedPages (s : Machine n) (id : Fin n) : Multiset ℕ :=
  owned L.kernelEnd s.mem 3 (taskPageTable L s.mem id)

/-- The addresses that belong to a task. -/
def territory (s : Machine n) (id : Fin n) : Set ℕ :=
  kernelPart L id ∪ inPages (ownedPages L s id)

/-- The memory of the kernel: its image, the table pages, and the free pages with their links. -/
def kernelBytes (s : Machine n) : Set ℕ :=
  {a | (textStart ≤ a ∧ a < L.kernelEnd) ∨ pageOf a ∈ sv39.tables s.mem 3 s.rootPageTable ∨
    (∃ id, s.Live id ∧ pageOf a ∈ sv39.tables s.mem 3 (taskPageTable L s.mem id)) ∨
    ∃ free, FreePages s.phys free ∧ pageOf a ∈ free}

/-- From `s` to `s'` task `j` has been left alone, but for bytes at the addresses in `W`. -/
structure Spared (W : Set ℕ) (s s' : Machine n) (j : Fin n) : Prop where
  live : s'.Live j
  bytes : ∀ a ∈ territory L s j, a ∉ W → s'.mem a = s.mem a
  pgd : taskPageTable L s'.mem j = taskPageTable L s.mem j
  nodes : ∀ leaf, sv39.nodes leaf s'.mem 3 (taskPageTable L s.mem j)
    = sv39.nodes leaf s.mem 3 (taskPageTable L s.mem j)
  entry : ∀ va, leafEntry s'.mem (taskPageTable L s.mem j) va
    = leafEntry s.mem (taskPageTable L s.mem j) va
  userStack : s'.taskUserStacks j = s.taskUserStacks j

/-- What the kernel may do on behalf of slot `c`. The bytes at `W` are an exception. -/
structure OnBehalf (fits : Prop) (W : Set ℕ) (c : Fin n) (s s' : Machine n) : Prop where
  memOk : MemOk L fits s'
  spared : ∀ j, j ≠ c → s.Live j → Spared L W s s' j
  text : ∀ a, textStart ≤ a → a < L.rodataEnd → s'.mem a = s.mem a
  root : s'.rootPageTable = s.rootPageTable
  rootTables : sv39.tables s'.mem 3 s.rootPageTable = sv39.tables s.mem 3 s.rootPageTable

variable {L} {fits : Prop} {W : Set ℕ} {s s' s'' : Machine n} {c d j id : Fin n} {a p : ℕ}
  {S : Multiset ℕ} {A : Set ℕ} {m m' : Mem} {free free' : List ℕ}

/-! ### Kernel data -/

theorem mem_kernelPart_bounds (ha : a ∈ kernelPart L id) : L.rodataEnd ≤ a ∧ a < L.kernelEnd :=
  ha.elim Layout.mem_contextRange_bounds Layout.mem_stackRange_bounds

/-- Different slots have different kernel data. -/
theorem kernelPart_disjoint (hne : c ≠ d) (ha : a ∈ kernelPart L c) : a ∉ kernelPart L d := by
  rintro (hd | hd)
  · rcases ha with hc | hc
    · exact Layout.contextRange_disjoint hne hc hd
    · exact Layout.contextRange_not_stack hd hc
  · rcases ha with hc | hc
    · exact Layout.contextRange_not_stack hc hd
    · exact Layout.stackRange_disjoint hne hc hd

/-- A change off a context leaves its fields alone. -/
theorem contextLoad_congr (h : ∀ a ∈ L.contextRange id, m' a = m a) (f : ContextField) :
    contextLoad m' (L.context id) f = contextLoad m (L.context id) f := by
  apply loadWord_congr
  intro i hi
  apply h
  have := f.offset_lt
  rw [Layout.contextRange, Set.mem_Ico]
  omega

theorem mem_stackRange_of_frame (ha : L.taskTrapFrame id ≤ a)
    (ha' : a < L.taskTrapFrame id + sizeofTrapframe) : a ∈ L.stackRange id := by
  have h := L.taskTrapFrame_le id
  rw [Layout.stackRange, Set.mem_Ico, L.kernelStackEnd_eq]
  omega

/-- A change off a kernel stack leaves its trapframe alone. -/
theorem tfLoad_congr (h : ∀ a ∈ L.stackRange id, m' a = m a) (f : TfField) :
    tfLoad m' (L.taskTrapFrame id) f = tfLoad m (L.taskTrapFrame id) f := by
  apply loadWord_congr
  intro i hi
  apply h
  have := f.offset_lt
  exact mem_stackRange_of_frame (by omega) (by omega)

/-! ### Page tables of live tasks -/

theorem pgds_of_live (h : s.Live id) : pgds L s id = some (taskPageTable L s.mem id) := if_pos h

theorem pgds_of_not_live (h : ¬ s.Live id) : pgds L s id = none := if_neg h

theorem pgds_eq_some (h : pgds L s id = some p) : s.Live id ∧ p = taskPageTable L s.mem id := by
  rw [pgds] at h
  split_ifs at h with hlive
  exact ⟨hlive, (Option.some.inj h).symm⟩

theorem taskPageTable_congr
    (h : contextLoad m' (L.context id) .satp = contextLoad m (L.context id) .satp) :
    taskPageTable L m' id = taskPageTable L m id := by
  rw [taskPageTable, taskPageTable, h]

/-- A context that names a page table by its `satp`. -/
theorem taskPageTable_eq (hp : IsPage p)
    (h : contextLoad m (L.context id) .satp = mmuMakeSatp p) : taskPageTable L m id = p := by
  rw [taskPageTable, h, mmuSatpToPgd_mmuMakeSatp hp]

/-! ### Frames -/

/-- What user programs may write to lies outside the kernel image. -/
theorem LeafOk.kernelEnd_le {e : Word} (h : LeafOk L e) (hw : UserWritable e) :
    L.kernelEnd ≤ (pteToPa e).toNat := by
  rcases h with h | ⟨-, -, h⟩
  · exact h
  · exact absurd h hw.2

/-- The bytes of a frame lie above the kernel image or in its read-only part. -/
theorem LeafOk.byte_bounds {e : Word} (h : LeafOk L e) {b : ℕ} (hb : b < 4096) :
    L.kernelEnd ≤ (pteToPa e).toNat + b ∨
      (textStart ≤ (pteToPa e).toNat + b ∧ (pteToPa e).toNat + b < L.rodataEnd) := by
  have hal := pteToPa_aligned e
  have hend := L.rodataEnd_aligned
  rw [PageAligned] at hal hend
  rcases h with h | ⟨hge, hlt, -⟩ <;> omega

/-- The page table of a live task is its own. -/
theorem MemOk.privateTree {free : List ℕ} (h : MemOk L fits s) (hlive : s.Live id)
    (hf : FreePages s.phys free) :
    PrivateTree L.kernelEnd s.rootPageTable s.phys (taskPageTable L s.mem id) free ∧
      L.kernelEnd ≤ s.rootPageTable := by
  obtain ⟨free', hspaces⟩ := h.spaces
  obtain rfl := hf.unique hspaces.isFree
  have hroot := hspaces.mem_managed .kernel EntryFormat.self_mem_tables
  exact ⟨hspaces.privateTree (pgds_of_live hlive), (Layout.mem_managed.mp hroot).2.1⟩

/-- A frame of a task holds no memory of the kernel and none of another task. -/
theorem physAddr_apart {va e : Word} (hmem : MemOk L fits s) (hlive : s.Live id)
    (he : leafEntry s.mem (taskPageTable L s.mem id) va = some e)
    (hge : L.kernelEnd ≤ (pteToPa e).toNat) :
    L.kernelEnd ≤ physAddr e va ∧ physAddr e va ∉ kernelBytes L s ∧
      ∀ j, j ≠ id → s.Live j → physAddr e va ∉ territory L s j := by
  obtain ⟨free, hspaces⟩ := hmem.spaces
  have hlow : L.kernelEnd ≤ physAddr e va := hge.trans (Nat.le_add_right _ _)
  have hpgd := pgds_of_live hlive (L := L)
  have hheld : (pteToPa e).toNat ∈ held L s.mem s.rootPageTable (pgds L s) free (.task id) :=
    (Spaces.mem_held_task hpgd).mpr (frame_mem_owned he hge)
  have hother : ∀ j, j ≠ id → s.Live j → (pteToPa e).toNat ∉ ownedPages L s j := by
    intro j hj hjLive
    rw [ownedPages, ← Spaces.mem_held_task (pgds_of_live hjLive)]
    exact hspaces.notMem _ _ (fun heq => hj (Holder.task.inj heq).symm) hheld
  -- the frame is no table page of the task itself
  have hself : (pteToPa e).toNat ∉ sv39.tables s.mem 3 (taskPageTable L s.mem id) :=
    (hmem.privateTree hlive hspaces.isFree).1.frame_notMem_tables he hge
  refine ⟨hlow, ?_, fun j hj hjLive hmemJ => ?_⟩
  · rw [kernelBytes, Set.mem_ofPred_eq, pageOf_physAddr]
    rintro (⟨-, himage⟩ | hroot | ⟨j, hjLive, hj⟩ | ⟨free', hfree', hf⟩)
    · omega
    · exact hspaces.notMem _ .kernel (by simp) hheld hroot
    · by_cases hid : j = id
      · subst hid
        exact hself hj
      · exact hother j hid hjLive (Multiset.mem_of_le (EntryFormat.tables_le_nodes _ _ _ _) hj)
    · obtain rfl := hfree'.unique hspaces.isFree
      exact hspaces.notMem _ .free (by simp) hheld hf
  · rcases hmemJ with hpart | hpage
    · exact absurd (mem_kernelPart_bounds hpart).2 (by omega)
    · change pageOf (physAddr e va) ∈ ownedPages L s j at hpage
      rw [pageOf_physAddr] at hpage
      exact hother j hj hjLive hpage

/-- Kernel data is no table and no free page. -/
theorem kernelBytes_subset (hmem : MemOk L fits s) (himage : EqOff L.image s.mem s'.mem)
    (hfree : s'.phys.freeList = s.phys.freeList) (hroot : s'.rootPageTable = s.rootPageTable)
    (hlive : ∀ id, s'.Live id ↔ s.Live id)
    (hpgd : ∀ id, taskPageTable L s'.mem id = taskPageTable L s.mem id) :
    kernelBytes L s' ⊆ kernelBytes L s := by
  obtain ⟨free, hspaces⟩ := hmem.spaces
  have hout : ∀ o x, x ∈ held L s.mem s.rootPageTable (pgds L s) free o → x ∉ L.image :=
    fun o x hx himg => Layout.notMem_managed_of_image himg (hspaces.mem_managed o hx)
  rintro a (hlow | hmemR | ⟨id, hid, hmemT⟩ | ⟨free', hfree', hmemF⟩)
  · exact Or.inl hlow
  · rw [hroot, EntryFormat.tables_eqOff himage hspaces.isPage_root.aligned (hout .kernel)] at hmemR
    exact Or.inr (Or.inl hmemR)
  · have hidLive := (hlive id).mp hid
    have hp := pgds_of_live hidLive (L := L)
    rw [hpgd, EntryFormat.tables_eqOff himage (hspaces.isPage_pgd hp).aligned] at hmemT
    · exact Or.inr (Or.inr (Or.inl ⟨id, hidLive, hmemT⟩))
    · intro x hx
      refine hout (.task id) x ((Spaces.mem_held_task hp).mpr ?_)
      exact Multiset.mem_of_le (EntryFormat.tables_le_nodes _ _ _ _) hx
  · have hkept : FreePages ⟨s'.mem, s'.phys.freeList⟩ free := by
      rw [hfree]
      exact hspaces.isFree.eqOff himage (hout .free)
    obtain rfl := hfree'.unique hkept
    exact Or.inr (Or.inr (Or.inr ⟨free', hspaces.isFree, hmemF⟩))

namespace Spared

theorem refl (h : s.Live j) : Spared L W s s j where
  live := h
  bytes _ _ _ := rfl
  pgd := rfl
  nodes _ := rfl
  entry _ := rfl
  userStack := rfl

theorem pages (h : Spared L W s s' j) : ownedPages L s' j = ownedPages L s j := by
  rw [ownedPages, ownedPages, h.pgd]
  exact h.nodes _

theorem territory_eq (h : Spared L W s s' j) : territory L s' j = territory L s j := by
  rw [territory, territory, h.pages]

theorem trans (h : Spared L W s s' j) (h' : Spared L W s' s'' j) : Spared L W s s'' j where
  live := h'.live
  bytes a ha hW := by
    rw [h'.bytes a (h.territory_eq ▸ ha) hW, h.bytes a ha hW]
  pgd := h'.pgd.trans h.pgd
  nodes leaf := by
    have hnodes := h'.nodes leaf
    rw [h.pgd] at hnodes
    rw [hnodes, h.nodes leaf]
  entry va := by
    have hentry := h'.entry va
    rw [h.pgd] at hentry
    rw [hentry, h.entry va]
  userStack := h'.userStack.trans h.userStack

/-- Only exceptions that belong to the task count. -/
theorem mono {W' : Set ℕ} (h : Spared L W s s' j) (hW : ∀ a ∈ W, a ∈ territory L s j → a ∈ W') :
    Spared L W' s s' j :=
  { h with bytes := fun a ha hnot => h.bytes a ha fun hmem => hnot (hW a hmem ha) }

/-- A change that stays off the pages and the kernel data of a task. -/
theorem of_eqOff (hmem : MemOk L fits s) (hlive : s.Live j) (hm : EqOff S s.mem s'.mem)
    (hS : ∀ x ∈ ownedPages L s j, x ∉ S) (hk : ∀ a ∈ kernelPart L j, s'.mem a = s.mem a)
    (hlive' : s'.Live j) (hstack : s'.taskUserStacks j = s.taskUserStacks j) :
    Spared L W s s' j := by
  obtain ⟨free, hspaces⟩ := hmem.spaces
  have hpgd : taskPageTable L s'.mem j = taskPageTable L s.mem j :=
    taskPageTable_congr (contextLoad_congr (fun a ha => hk a (Or.inl ha)) .satp)
  have hal := (hspaces.isPage_pgd (pgds_of_live hlive)).aligned
  refine ⟨hlive', fun a ha _ => ?_, hpgd, fun leaf => ?_, fun va => leafEntry_eqOff hm hal hS,
    hstack⟩
  · rcases ha with ha | ha
    · exact hk a ha
    · exact hm a fun hmem => hS _ ha hmem
  · exact EntryFormat.nodes_eqOff hm hal
      fun x hx => hS x (Multiset.mem_of_le (EntryFormat.tables_le_nodes _ _ _ _) hx)

end Spared

/-- A store that misses the memory of the kernel changes no kernel data. -/
theorem storeByte_kernelPart (ha : a ∉ kernelBytes L s) (b : Byte) :
    ∀ x ∈ kernelPart L id, storeByte s.mem a b x = s.mem x := by
  intro x hx
  apply storeByte_of_ne
  rintro rfl
  obtain ⟨hge, hlt⟩ := mem_kernelPart_bounds hx
  exact ha (Or.inl ⟨(L.text_le.trans L.rodata_le).trans hge, hlt⟩)

/-- A store that misses the memory of the kernel changes no page table. -/
theorem Spared.of_store (hmem : MemOk L fits s) (hlive : s.Live j) (ha : a ∉ kernelBytes L s)
    (b : Byte) : Spared L {a} s (s.withMem (storeByte s.mem a b)) j := by
  obtain ⟨free, hspaces⟩ := hmem.spaces
  have hm : EqOff {pageOf a} s.mem (storeByte s.mem a b) := eqOff_storeByte _ _ _
  have hal := (hspaces.isPage_pgd (pgds_of_live hlive)).aligned
  have hout : ∀ x ∈ sv39.tables s.mem 3 (taskPageTable L s.mem j),
      x ∉ ({pageOf a} : Multiset ℕ) := by
    intro x hx hxa
    rw [Multiset.mem_singleton] at hxa
    exact ha (Or.inr (Or.inr (Or.inl ⟨j, hlive, hxa ▸ hx⟩)))
  refine ⟨hlive, fun x _ hx => storeByte_of_ne _ _ hx, ?_, fun leaf => ?_, fun va => ?_, rfl⟩
  · exact taskPageTable_congr
      (contextLoad_congr (fun x hx => storeByte_kernelPart ha b x (Or.inl hx)) .satp)
  · exact EntryFormat.nodes_eqOff hm hal hout
  · exact EntryFormat.leafAt_eqOff (getVpn_lt va) hm hal hout

namespace OnBehalf

theorem refl (h : MemOk L fits s) : OnBehalf L fits W c s s where
  memOk := h
  spared _ _ hlive := Spared.refl hlive
  text _ _ _ := rfl
  root := rfl
  rootTables := rfl

theorem trans (h : OnBehalf L fits W c s s') (h' : OnBehalf L fits W c s' s'') :
    OnBehalf L fits W c s s'' where
  memOk := h'.memOk
  spared j hj hlive := (h.spared j hj hlive).trans (h'.spared j hj (h.spared j hj hlive).live)
  text a ha ha' := (h'.text a ha ha').trans (h.text a ha ha')
  root := h'.root.trans h.root
  rootTables := by
    have htables := h'.rootTables
    rw [h.root] at htables
    rw [htables, h.rootTables]

theorem mono {W' : Set ℕ} (h : OnBehalf L fits W c s s')
    (hW : ∀ a ∈ W, ∀ j, j ≠ c → s.Live j → a ∈ territory L s j → a ∈ W') :
    OnBehalf L fits W' c s s' :=
  { h with spared := fun j hj hlive =>
      (h.spared j hj hlive).mono fun a ha hmem => hW a ha j hj hlive hmem }

/-- What is done on behalf of a slot not in use spares all tasks. -/
theorem of_not_live (h : OnBehalf L fits W d s s') (hd : ¬ s.Live d) : OnBehalf L fits W c s s' :=
  { h with spared := fun j _ hlive => h.spared j (fun hjd => hd (hjd ▸ hlive)) hlive }

/-- Giving the slot the page table `r`, or none. -/
theorem of_spaces (hmem : MemOk L fits s)
    (hspaces : Spaces L fits s.phys s.rootPageTable (pgds L s) free) (r : Option ℕ)
    (hspaces' : Spaces L fits s'.phys s.rootPageTable (Function.update (pgds L s) c r) free')
    (hm : EqOff S s.mem s'.mem)
    (hS : ∀ x ∈ S, x ∈ L.image ∨ x ∈ (free : Multiset ℕ) + ownedBy L.kernelEnd s.mem (pgds L s c))
    (hk : ∀ a, a < L.kernelEnd → a ∉ kernelPart L c → s'.mem a = s.mem a)
    (hnone : r = none → ¬ s'.Live c)
    (hsome : ∀ p, r = some p → s'.Live c ∧ IsPage p ∧
      contextLoad s'.mem (L.context c) .satp = mmuMakeSatp p)
    (hlive : ∀ id, id ≠ c → (s'.Live id ↔ s.Live id)) (hroot : s'.rootPageTable = s.rootPageTable)
    (hstacks : ∀ id, id ≠ c → s'.taskUserStacks id = s.taskUserStacks id) :
    OnBehalf L fits W c s s' := by
  -- the contexts of the other slots are kernel data of theirs
  have hcontext : ∀ id, id ≠ c →
      contextLoad s'.mem (L.context id) .satp = contextLoad s.mem (L.context id) .satp := by
    intro id hid
    refine contextLoad_congr (fun a ha => ?_) .satp
    have hpart : a ∈ kernelPart L id := Or.inl ha
    exact hk a (mem_kernelPart_bounds hpart).2 (kernelPart_disjoint hid hpart)
  have hpgds : pgds L s' = Function.update (pgds L s) c r := by
    funext id
    by_cases hid : id = c
    · subst hid
      rw [Function.update_self]
      cases r with
      | none => exact pgds_of_not_live (hnone rfl)
      | some p =>
        obtain ⟨hlive', hp, hsatp⟩ := hsome p rfl
        rw [pgds_of_live hlive', taskPageTable_eq hp hsatp]
    · rw [Function.update_of_ne hid]
      by_cases hidLive : s.Live id
      · rw [pgds_of_live hidLive, pgds_of_live ((hlive id hid).mpr hidLive),
          taskPageTable_congr (hcontext id hid)]
      · rw [pgds_of_not_live hidLive, pgds_of_not_live fun h => hidLive ((hlive id hid).mp h)]
  refine ⟨⟨⟨free', ?_⟩, fun id hidLive => ?_⟩, fun j hj hjLive => ?_, fun a ha ha' => ?_, hroot, ?_⟩
  · rw [hroot, hpgds]
    exact hspaces'
  · by_cases hid : id = c
    · subst hid
      cases r with
      | none => exact absurd hidLive (hnone rfl)
      | some p =>
        obtain ⟨-, hp, hsatp⟩ := hsome p rfl
        rw [hsatp, taskPageTable_eq hp hsatp]
    · rw [hcontext id hid, taskPageTable_congr (hcontext id hid)]
      exact hmem.satp id ((hlive id hid).mp hidLive)
  · refine Spared.of_eqOff hmem hjLive hm (fun x hx hxS => ?_) (fun a ha => ?_)
      ((hlive j hj).mpr hjLive) (hstacks j hj)
    · exact (hspaces.touched_apart c (hS x hxS)).2 j _ hj (pgds_of_live hjLive) hx
    · exact hk a (mem_kernelPart_bounds ha).2 (kernelPart_disjoint hj ha)
  · -- the kernel data begin behind the text and the read-only data
    refine hk a (ha'.trans_le L.rodataEnd_le_kernelEnd) fun hpart => ?_
    exact absurd (mem_kernelPart_bounds hpart).1 (by omega)
  · exact EntryFormat.tables_eqOff hm hspaces.isPage_root.aligned
      fun x hx hxS => (hspaces.touched_apart c (hS x hxS)).1 hx

/-- Giving the page table `p` to a slot that was not in use. -/
theorem of_born (hmem : MemOk L fits s)
    (hspaces : Spaces L fits s.phys s.rootPageTable (pgds L s) free)
    (hspaces' : Spaces L fits s'.phys s.rootPageTable (Function.update (pgds L s) c (some p)) free')
    (hm : EqOff S s.mem s'.mem) (hS : ∀ x ∈ S, x ∈ L.image ∨ x ∈ free)
    (hk : ∀ a, a < L.kernelEnd → a ∉ kernelPart L c → s'.mem a = s.mem a)
    (hsatp : contextLoad s'.mem (L.context c) .satp = mmuMakeSatp p)
    (hstates : s'.sched.taskStates = Function.update s.sched.taskStates c .ready)
    (hroot : s'.rootPageTable = s.rootPageTable)
    (hstacks : ∀ id, id ≠ c → s'.taskUserStacks id = s.taskUserStacks id) :
    OnBehalf L fits W c s s' := by
  have hp : IsPage p := hspaces'.isPage_pgd (Function.update_self _ _ _)
  refine of_spaces hmem hspaces (some p) hspaces' hm (fun x hx => ?_) hk (fun hnone => ?_)
    (fun q hq => ?_) (fun id hid => ?_) hroot hstacks
  · exact (hS x hx).imp_right fun hfree => Multiset.mem_add.mpr (Or.inl hfree)
  · cases hnone
  · obtain rfl := Option.some.inj hq
    refine ⟨?_, hp, hsatp⟩
    rw [Machine.Live, hstates, Function.update_self]
    simp
  · rw [Machine.Live, Machine.Live, hstates, Function.update_of_ne hid]

/-- Writing to the context and the kernel stack of the slot. -/
theorem of_kernelWrite (hmem : MemOk L fits s) (hchanged : ChangedIn A s.mem s'.mem)
    (hA : ∀ a ∈ A, a ∈ kernelPart L c)
    (hsatp : s.Live c →
      contextLoad s'.mem (L.context c) .satp = contextLoad s.mem (L.context c) .satp)
    (hfree : s'.phys.freeList = s.phys.freeList) (hroot : s'.rootPageTable = s.rootPageTable)
    (hlive : ∀ id, s'.Live id ↔ s.Live id)
    (hstacks : ∀ id, id ≠ c → s'.taskUserStacks id = s.taskUserStacks id) :
    OnBehalf L fits W c s s' := by
  obtain ⟨free, hspaces⟩ := hmem.spaces
  have himage : EqOff L.image s.mem s'.mem :=
    Layout.eqOff_image hchanged fun a ha => (mem_kernelPart_bounds (hA a ha)).2
  have hphys : s'.phys = ⟨s'.mem, s.phys.freeList⟩ := by
    rw [← hfree]
    rfl
  -- the context of the task is in the image, and no page has changed hands
  have hspaces' : Spaces L fits s'.phys s.rootPageTable
      (Function.update (pgds L s) c (pgds L s c)) free := by
    rw [Function.update_eq_self, hphys]
    exact hspaces.eqOff_image himage
  refine of_spaces hmem hspaces (pgds L s c) hspaces' himage (fun x hx => Or.inl hx)
    (fun a _ ha => hchanged a fun hmem => ha (hA a hmem)) (fun hnone => ?_) (fun p hp => ?_)
    (fun id _ => hlive id) hroot hstacks
  · rw [hlive]
    intro h
    rw [pgds_of_live h] at hnone
    cases hnone
  · obtain ⟨h, rfl⟩ := pgds_eq_some hp
    refine ⟨(hlive c).mpr h, hspaces.isPage_pgd hp, ?_⟩
    rw [hsatp h, hmem.satp c h]

/-- A store that misses the memory of the kernel. -/
theorem of_store (hmem : MemOk L fits s) (ha : a ∉ kernelBytes L s) (b : Byte) :
    OnBehalf L fits {a} c s (s.withMem (storeByte s.mem a b)) := by
  have hspared := fun id (hlive : s.Live id) => Spared.of_store hmem hlive ha b
  have hcontext : ∀ id, contextLoad (storeByte s.mem a b) (L.context id) .satp
      = contextLoad s.mem (L.context id) .satp :=
    fun id => contextLoad_congr (fun x hx => storeByte_kernelPart ha b x (Or.inl hx)) .satp
  have hpgd : ∀ id, taskPageTable L (storeByte s.mem a b) id = taskPageTable L s.mem id :=
    fun id => taskPageTable_congr (hcontext id)
  simp only [kernelBytes, Set.mem_ofPred_eq, not_or, not_exists, not_and] at ha
  obtain ⟨himage, hroot, htables, hfree⟩ := ha
  obtain ⟨free, hspaces⟩ := hmem.spaces
  have hm : EqOff {pageOf a} s.mem (storeByte s.mem a b) := eqOff_storeByte _ _ _
  have hout : ∀ {S : Multiset ℕ}, pageOf a ∉ S → ∀ x ∈ S, x ∉ ({pageOf a} : Multiset ℕ) := by
    intro S hS x hx hxa
    rw [Multiset.mem_singleton] at hxa
    exact hS (hxa ▸ hx)
  -- the page of the byte is no table of any task
  have htable : ∀ id p, pgds L s id = some p → pageOf a ∉ sv39.tables s.mem 3 p := by
    intro id p hp
    obtain ⟨hlive, rfl⟩ := pgds_eq_some hp
    exact htables id hlive
  have hspaces' : Spaces L fits { s.phys with mem := storeByte s.mem a b } s.rootPageTable
      (pgds L s) free :=
    hspaces.eqOff hm (hout (S := free) (hfree free hspaces.isFree)) (hout hroot)
      fun id p hp => hout (htable id p hp)
  refine ⟨⟨⟨free, ?_⟩, fun id hlive => ?_⟩, fun j _ hlive => hspared j hlive, fun x hx hx' => ?_,
    rfl, EntryFormat.tables_eqOff hm hspaces.isPage_root.aligned (hout hroot)⟩
  · have hpgds : pgds L (s.withMem (storeByte s.mem a b)) = pgds L s := by
      funext id
      rw [pgds, pgds, Machine.withMem_mem, hpgd]
      rfl
    rw [hpgds]
    exact hspaces'
  · rw [Machine.withMem_mem, hcontext, hpgd]
    exact hmem.satp id hlive
  · apply storeByte_of_ne
    rintro rfl
    exact himage hx (hx'.trans_le L.rodataEnd_le_kernelEnd)

end OnBehalf

end RiscvKernel
