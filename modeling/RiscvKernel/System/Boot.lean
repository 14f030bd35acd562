import RiscvKernel.System.Invariant

/-!
# Boot

What `task_init` makes of a free slot (`Created`), and that a system that has just been booted
satisfies the invariant (`Booted.inv`).
-/

namespace RiscvKernel

open ByteMemory RadixTable Riscv

variable {n : ℕ} {L : Layout n} {m : Mem} {pgd stackPa : ℕ} {maps : List Mapping}
  {used : Multiset ℕ} {fits : Prop} {s : Machine n} {id : Fin n}

/-! ### A new address space -/

namespace InitialSpace

theorem spaceOk (h : InitialSpace L m pgd stackPa maps used) : SpaceOk L m pgd := by
  refine ⟨fun va e he => ?_, ?_⟩
  · obtain ⟨x, hx, -, rfl⟩ := exists_of_leafEntry h.built he
    exact (h.user x hx).leafOk
  · obtain ⟨x, hx, hva, -⟩ := h.stack
    rw [← hva]
    exact leafEntry_ne_none_of_built h.built hx

/-- The entry of the stack page leads to the page that was allocated for it. -/
theorem stackEntry (h : InitialSpace L m pgd stackPa maps used) :
    ∃ e, leafEntry m pgd userStackPageVa = some e ∧ BitVec.ofNat 64 stackPa = pteToPa e ∧
      UserWritable e := by
  obtain ⟨e, he⟩ := Option.ne_none_iff_exists'.mp h.spaceOk.stack
  obtain ⟨x, hx, hva, hframe, hflags⟩ := h.stack
  obtain ⟨y, hy, hslot, rfl⟩ := exists_of_leafEntry h.built he
  -- no other mapping uses the entry
  have : Std.Symm SlotsDiffer := ⟨fun _ _ hne => Ne.symm hne⟩
  obtain rfl : y = x := by
    by_contra hne
    exact h.slotsDiffer.forall hy hx hne (by rw [hslot, hva])
  have hok := (h.user y hx).ok
  refine ⟨_, he, ?_, ?_, ?_⟩
  · apply BitVec.eq_of_toNat_eq
    have hlt := hok.isPage.lt
    rw [hframe] at hlt
    rw [hok.pteToPa_entry, hframe, BitVec.toNat_ofNat]
    omega
  · rw [Mapping.entry_and _ (by decide) (by decide) (by decide), hflags]
    decide
  · rw [Mapping.entry_and _ (by decide) (by decide) (by decide), hflags]
    decide

end InitialSpace

/-! ### A new task -/

/-- `init_user_frame` makes a trapframe that starts the task at its entry point. -/
theorem initUserFrame_spec (L : Layout n) (id : Fin n) (entry : Word) (m : Mem) :
    ChangedIn (kernelPart L id) m (initUserFrame L id entry m) ∧
      Fresh L (initUserFrame L id entry m) id ∧
      ∀ f, tfLoad (initUserFrame L id entry m) (L.taskTrapFrame id) f
        = if f = .userSp then userStackTop else if f = .epc then entry else 0#64 := by
  obtain ⟨hcleared, hzero⟩ := trapframeClear_spec m (L.taskTrapFrame id)
  rw [initUserFrame]
  set m₁ := trapframeClear (L.taskTrapFrame id) m
  set m₂ := tfStore (tfStore m₁ (L.taskTrapFrame id) .epc entry) (L.taskTrapFrame id) .userSp
    userStackTop with hm₂
  obtain ⟨hchanged, hfresh⟩ := bindTaskFrame_spec L id m₂
  have hstores : ChangedIn (L.stackRange id) m₁ m₂ :=
    (changedIn_frame L id _ _ _).trans (changedIn_frame L id _ _ _)
  refine ⟨?_, hfresh, fun f => ?_⟩
  · exact ((hcleared.mono fun a ha => Or.inr (mem_stackRange_of_frame ha.1 ha.2)).trans
      (hstores.mono fun a ha => Or.inr ha)).trans (hchanged.mono fun a ha => Or.inl ha)
  · have hframe : ∀ a ∈ L.stackRange id, bindTaskFrame L id (L.taskTrapFrame id) m₂ a = m₂ a :=
      fun a ha => hchanged a fun hmem => Layout.contextRange_not_stack hmem ha
    have hkept := tfLoad_congr hframe f
    rw [hkept, hm₂, tfLoad_tfStore, tfLoad_tfStore, hzero]

/-- `task_init` has made a new task of slot `id`, which starts at `func`. -/
structure Created (L : Layout n) (fits : Prop) (func : Word) (id : Fin n) (s s' : Machine n) :
    Prop where
  onBehalf : OnBehalf L fits ∅ id s s'
  hart : s'.hart = s.hart
  sched : s'.sched
    = { s.sched with taskStates := Function.update s.sched.taskStates id .ready }
  fresh : Fresh L s'.mem id
  frame : ∀ f, tfLoad s'.mem (L.taskTrapFrame id) f
    = if f = .userSp then userStackTop else if f = .epc then func else 0#64
  userStack : ∃ e, leafEntry s'.mem (taskPageTable L s'.mem id) userStackPageVa = some e ∧
    s'.taskUserStacks id = pteToPa e ∧ UserWritable e
  card : (sv39.pages s'.mem 3 (taskPageTable L s'.mem id)).card ≤ 2 + 2 * L.initPages

/-- The pages used for a new address space were the first free ones. -/
theorem mem_of_mem_used {taken free' : List ℕ} {x : ℕ}
    (hx : x ∈ ({pgd} + {stackPa} + ↑taken : Multiset ℕ)) :
    x ∈ pgd :: stackPa :: (taken ++ free') := by
  rw [Multiset.mem_add, Multiset.mem_add, Multiset.mem_singleton, Multiset.mem_singleton] at hx
  rcases hx with (rfl | rfl) | hx
  · exact List.mem_cons_self
  · exact List.mem_cons_of_mem _ List.mem_cons_self
  · exact List.mem_cons_of_mem _ (List.mem_cons_of_mem _ (List.mem_append_left _ hx))

/-- The end of `task_init`, when the address space is there. -/
theorem created_of_built {t : Phys} {func : Word} {taken free' : List ℕ}
    (hmem : MemOk L fits s) (hdead : ¬ s.Live id)
    (hspaces : Spaces L fits s.phys s.rootPageTable (pgds L s) (pgd :: stackPa :: (taken ++ free')))
    (hf : FreePages t free') (hlen : taken.length ≤ L.initPages)
    (hspace : InitialSpace L t.mem pgd stackPa maps ({pgd} + {stackPa} + ↑taken))
    (hpages : ∀ x ∈ maps, BootPage L t.mem x)
    (hm : EqOff (L.image + ↑(pgd :: stackPa :: (taken ++ free'))) s.mem t.mem)
    (hlow : ∀ a, a < L.kernelEnd → a ∉ kernelPart L id → t.mem a = s.mem a)
    (hfresh : Fresh L t.mem id) (hframe : ∀ f, tfLoad t.mem (L.taskTrapFrame id) f
      = if f = .userSp then userStackTop else if f = .epc then func else 0#64) :
    let s' : Machine n := (({ s with phys := { t with mem := bindTaskPageTable L id pgd t.mem } } :
      Machine n).setUserStack id (BitVec.ofNat 64 stackPa)).setState id .ready
    Created L fits func id s s' ∧ BootMapped L s'.mem (taskPageTable L s'.mem id) := by
  obtain ⟨hchanged, hsatp, hfresh'⟩ := bindTaskPageTable_spec L id pgd t.mem
  generalize bindTaskPageTable L id pgd t.mem = m' at hchanged hsatp hfresh'
  intro s'
  have himage : EqOff L.image t.mem m' :=
    Layout.eqOff_image hchanged fun a ha => (Layout.mem_contextRange_bounds ha).2
  have hout : ∀ x ∈ (pgd :: stackPa :: (taken ++ free') : List ℕ), x ∉ L.image :=
    fun x hx himg => Layout.notMem_managed_of_image himg (hspaces.mem_managed .free hx)
  have hpage : IsPage pgd := hspaces.isPage .free List.mem_cons_self
  have hpgd : taskPageTable L s'.mem id = pgd := taskPageTable_eq hpage hsatp
  have hbuilt : Built L.kernelEnd m' pgd maps ({pgd} + {stackPa} + ↑taken) :=
    hspace.built.eqOff himage fun x hx => hout x (mem_of_mem_used hx)
  have hspace' : InitialSpace L m' pgd stackPa maps ({pgd} + {stackPa} + ↑taken) :=
    { hspace with built := hbuilt }
  obtain ⟨e, he, hstack, hwritable⟩ := hspace'.stackEntry
  -- the slot owned nothing, so the pages it gets are those taken from the free list
  have hnone : ownedBy L.kernelEnd s.mem (pgds L s id) = 0 := by
    rw [pgds_of_not_live hdead, ownedBy_none]
  have htotal : (free' : Multiset ℕ) + ownedBy L.kernelEnd m' (some pgd)
      = ↑(pgd :: stackPa :: (taken ++ free')) + ownedBy L.kernelEnd s.mem (pgds L s id) := by
    rw [hnone, add_zero, ownedBy_some, hbuilt.owned_eq hspace'.slotsDiffer,
      ← Multiset.cons_coe, ← Multiset.cons_coe, ← Multiset.coe_add, ← Multiset.singleton_add,
      ← Multiset.singleton_add]
    abel
  have hm' : EqOff (L.image + ↑(pgd :: stackPa :: (taken ++ free')) + L.image) s.mem m' :=
    hm.trans himage
  have hS : ∀ x ∈ L.image + ↑(pgd :: stackPa :: (taken ++ free')) + L.image,
      x ∈ L.image ∨ x ∈ pgd :: stackPa :: (taken ++ free') := by
    intro x hx
    rcases Multiset.mem_add.mp hx with hx | hx
    · exact Multiset.mem_add.mp hx
    · exact Or.inl hx
  have hspaces' : Spaces L fits s'.phys s.rootPageTable
      (Function.update (pgds L s) id (some pgd)) free' := by
    refine hspaces.update id (some pgd) hm' (fun x hx => ?_) (hf.eqOff himage fun x hx => hout x ?_)
      htotal.le (fun _ => htotal) fun p hp => ?_
    · exact (hS x hx).imp_right fun hfree => Multiset.mem_add.mpr (Or.inl hfree)
    · simp [hx]
    · obtain rfl := Option.some.inj hp
      exact hspace'.spaceOk
  refine ⟨⟨?_, rfl, rfl, hfresh' hfresh, fun f => ?_, ⟨e, ?_, ?_, hwritable⟩, ?_⟩, ?_⟩
  · refine OnBehalf.of_born hmem hspaces hspaces' hm' hS (fun a ha hpart => ?_) hsatp rfl rfl
      (fun j hj => Function.update_of_ne hj _ _)
    change m' a = s.mem a
    rw [hchanged a fun hmem => hpart (Or.inl hmem), hlow a ha hpart]
  · -- the context lies outside the kernel stack, so the frame is as it was built
    rw [← hframe f]
    exact tfLoad_congr (fun a ha => hchanged a fun hmem =>
      Layout.contextRange_not_stack hmem ha) f
  · rw [hpgd]
    exact he
  · rw [← hstack]
    exact Function.update_self _ _ _
  · rw [hpgd]
    have hcard := hspace'.card_pages
    simp only [Multiset.card_add, Multiset.card_singleton, Multiset.coe_card] at hcard
    change (sv39.pages m' 3 pgd).card ≤ _
    omega
  · -- the context is no part of a page that is mapped
    rw [hpgd]
    refine ⟨stackPa, maps, _, hspace', fun x hx => ?_⟩
    refine frameLocal_bootPage L t.mem m' x (fun hge b _ => hchanged _ fun hmem => ?_) (hpages x hx)
    have := (Layout.mem_contextRange_bounds hmem).2
    omega

/-- `task_init` makes a new task of a free slot; it hangs only if the free pages do not suffice. -/
theorem taskInit_spec (hmem : MemOk L fits s) (hdead : ¬ s.Live id) (func : Word) :
    Outcome (∀ free, FreePages s.phys free → free.length < 2 + L.initPages)
      (fun s' => Created L fits func id s s' ∧ BootMapped L s'.mem (taskPageTable L s'.mem id))
      (taskInit L id func s) := by
  obtain ⟨free, hspaces⟩ := hmem.spaces
  rw [taskInit]
  -- the page table and the stack page
  refine Outcome.bind ((allocPage_spec hspaces.isFree).mono (fun hstuck free' hf' => ?_)
    fun _ h => h) ?_
  · rw [hf'.unique hspaces.isFree]
    omega
  rintro ⟨pgd, t₁⟩ ⟨free₁, rfl, hf₁, hoff₁, hz₁⟩
  dsimp only at hspaces hf₁ hoff₁ hz₁ ⊢
  refine Outcome.bind ((allocPage_spec hf₁).mono (fun hstuck free' hf' => ?_) fun _ h => h) ?_
  · rw [hf'.unique hspaces.isFree, List.length_cons]
    omega
  rintro ⟨stackPa, t₂⟩ ⟨free₂, rfl, hf₂, hoff₂, hz₂⟩
  dsimp only at hspaces hf₂ hoff₂ hz₂ ⊢
  -- the trapframe and the context
  obtain ⟨hchanged, hfresh, hframe⟩ := initUserFrame_spec L id func t₂.mem
  generalize initUserFrame L id func t₂.mem = m at hchanged hfresh hframe
  have himage : EqOff L.image t₂.mem m :=
    Layout.eqOff_image hchanged fun a ha => (mem_kernelPart_bounds ha).2
  have hge : ∀ q ∈ pgd :: stackPa :: free₂, L.kernelEnd ≤ q := fun q hq =>
    (Layout.mem_managed.mp (hspaces.mem_managed .free hq)).2.1
  have hpage : ∀ q ∈ pgd :: stackPa :: free₂, IsPage q := hspaces.isFree.isPage
  have hnd := hspaces.isFree.nodup
  simp only [List.nodup_cons, List.mem_cons, not_or] at hnd
  have hbuilding : Building L.kernelEnd { t₂ with mem := m } pgd [] {pgd} free₂ := by
    refine ⟨Built.of_cleared (hpage pgd (by simp)).aligned fun b hb => ?_, ?_, ?_⟩
    · have hpgd := hge pgd (by simp)
      change m (pgd + b) = 0
      rw [hchanged _ fun hmem => absurd (mem_kernelPart_bounds hmem).2 (by omega),
        hoff₂.byte_eq (hpage pgd (by simp)).aligned hb (by simpa using hnd.1.1), hz₁ b hb]
    · refine hf₂.eqOff himage fun x hx hximg => ?_
      have := hge x (by simp [hx])
      have := (Layout.mem_image.mp hximg).2
      omega
    · rw [add_comm, Multiset.singleton_add, Multiset.nodup_cons]
      exact ⟨hnd.1.2, hnd.2.2⟩
  have hzero : ∀ b < 4096, m (stackPa + b) = 0 := by
    intro b hb
    have hstack := hge stackPa (by simp)
    rw [hchanged _ fun hmem => absurd (mem_kernelPart_bounds hmem).2 (by omega), hz₂ b hb]
  refine Outcome.bind ((initUserAddressSpace_spec hbuilding (fun q hq => hge q (by simp [hq]))
    (hpage stackPa (by simp)) (hge stackPa (by simp)) hnd.2.1 (Ne.symm hnd.1.1) hzero).mono
    (fun hstuck free' hf' => ?_) fun _ h => h) ?_
  · rw [hf'.unique hspaces.isFree, List.length_cons, List.length_cons]
    omega
  rintro t₃ ⟨maps, taken, free₃, rfl, hlen, hf₃, hspace, hpages, hoff₃⟩
  change EqOff _ m t₃.mem at hoff₃
  -- no kernel data but that of the slot has been written
  have hfree : ∀ x ∈ pgd :: stackPa :: (taken ++ free₃),
      x ∈ ((pgd :: stackPa :: (taken ++ free₃) : List ℕ) : Multiset ℕ)
        + ownedBy L.kernelEnd s.mem (pgds L s id) := fun x hx => Multiset.mem_add.mpr (Or.inl hx)
  have hlow₃ : ∀ a, a < L.kernelEnd → t₃.mem a = m a := fun a ha =>
    hspaces.eq_below id hoff₃ (fun x hx => hfree x (mem_of_mem_used hx)) ha
  have hlow₂ : ∀ a, a < L.kernelEnd → t₂.mem a = s.mem a := by
    intro a ha
    rw [hspaces.eq_below id hoff₂ (fun x hx => hfree x ?_) ha]
    · refine hspaces.eq_below id hoff₁ (fun x hx => hfree x ?_) ha
      simp [Multiset.mem_singleton.mp hx]
    · simp [Multiset.mem_singleton.mp hx]
  refine created_of_built hmem hdead hspaces hf₃ hlen hspace hpages ?_ (fun a ha hpart => ?_)
    (hfresh.congr fun a ha => ?_) fun f => ?_
  · refine (((hoff₁.trans hoff₂).trans himage).trans hoff₃).mono fun x hx => ?_
    rcases Multiset.mem_add.mp hx with hx | hx
    · rcases Multiset.mem_add.mp hx with hx | hx
      · exact Multiset.mem_add.mpr (Or.inr (mem_of_mem_used (Multiset.mem_add.mpr (Or.inl hx))))
      · exact Multiset.mem_add.mpr (Or.inl hx)
    · exact Multiset.mem_add.mpr (Or.inr (mem_of_mem_used hx))
  · rw [hlow₃ a ha, hchanged a hpart, hlow₂ a ha]
  · exact hlow₃ a (Layout.mem_contextRange_bounds ha).2
  · rw [← hframe f]
    exact tfLoad_congr (fun a ha => hlow₃ a (Layout.mem_stackRange_bounds ha).2) f

/-! ### The first task -/

/-- The system at boot, before the first task is created. -/
theorem memOk_of_noTask {root : ℕ} {free taken free' : List ℕ} {t t' : Phys}
    (hmanaged : (free : Multiset ℕ) = L.managed) (h : TablesTaken t t' root free taken free')
    (hphys : s.phys = t') (hroot : s.rootPageTable = root) (hdead : ∀ id, ¬ s.Live id) :
    MemOk L fits s := by
  have hpgds : pgds L s = fun _ => none := funext fun id => pgds_of_not_live (hdead id)
  have hheld : ∑ o, held L t'.mem root (fun _ : Fin n => none) free' o = L.managed := by
    have hothers : ∀ o : Holder n, o ≠ .free → o ≠ .kernel →
        held L t'.mem root (fun _ : Fin n => none) free' o = 0 := by
      rintro (- | - | id) hfree hkernel
      · exact absurd rfl hfree
      · exact absurd rfl hkernel
      · rw [held_task, ownedBy_none]
    rw [Fintype.sum_eq_add Holder.free Holder.kernel (by simp) fun o ho => hothers o ho.1 ho.2,
      ← hmanaged, h.free_eq, ← Multiset.coe_add, ← h.tables, add_comm]
    rfl
  refine ⟨⟨free', ?_⟩, fun id hid => absurd hid (hdead id)⟩
  rw [hphys, hroot, hpgds]
  exact ⟨h.isFree, hheld.le, fun _ => hheld, fun id p hp => by cases hp⟩

/-- The state in which the first task starts. -/
structure AtBoot [NeZero n] (L : Layout n) (fits : Prop) (s : Machine n) : Prop where
  memOk : MemOk L fits s
  sched : s.sched = ⟨0, Function.update (fun _ => .dead) 0 .running⟩
  satp : s.hart.csr .satp = contextLoad s.mem (L.context 0) .satp
  priv : s.hart.priv = .user
  mscratch : (s.hart.csr .mscratch).toNat = L.kernelStackEnd 0
  userStack : ∃ e, leafEntry s.mem (taskPageTable L s.mem 0) userStackPageVa = some e ∧
    s.taskUserStacks 0 = pteToPa e ∧ UserWritable e
  rootCard : (sv39.tables s.mem 3 s.rootPageTable).card ≤ 133
  card : (sv39.pages s.mem 3 (taskPageTable L s.mem 0)).card ≤ 2 + 2 * L.initPages

/-- The first task starts with an empty stack, cleared registers, and its own address space. The
text and the read-only data of the kernel are those in `m`. -/
structure FirstTask [NeZero n] (L : Layout n) (m : Mem) (s : Machine n) : Prop where
  pc : s.hart.pc = L.taskShell
  reg : ∀ x, s.hart.reg x = if x = .sp then userStackTop else 0#64
  mapped : BootMapped L s.mem (taskPageTable L s.mem 0)
  text : ∀ a, textStart ≤ a → a < L.rodataEnd → s.mem a = m a

/-- `task_wrapper` starts the task that `task_init` has made. -/
theorem atBoot_of_created [NeZero n] {s₀ s₁ : Machine n} (h : Created L fits L.taskShell 0 s₀ s₁)
    (hmapped : BootMapped L s₁.mem (taskPageTable L s₁.mem 0))
    (hsched : s₀.sched = ⟨0, fun _ => .dead⟩)
    (hcard : (sv39.tables s₀.mem 3 s₀.rootPageTable).card ≤ 133) :
    let s := taskWrapper L { s₁ with
      hart := s₁.hart.setCsr .satp (contextLoad s₁.mem (L.context 0) .satp) }
    AtBoot L fits s ∧ FirstTask L s₀.mem s := by
  have hcurrent : s₁.sched.currentTask = 0 := by rw [h.sched, hsched]
  set s₂ : Machine n := { s₁ with
    hart := s₁.hart.setCsr .satp (contextLoad s₁.mem (L.context 0) .satp) } with hs₂
  have hcur₂ : s₂.sched.currentTask = 0 := hcurrent
  intro s
  change AtBoot L fits (taskWrapper L s₂) ∧ FirstTask L s₀.mem (taskWrapper L s₂)
  rw [taskWrapper]
  simp only [Machine.setState_currentTask, Machine.setState_mem, Machine.setState_hart, hcur₂]
  -- the context of a new task points to its frame, on top of its kernel stack
  have hsp : ((s₂.hart.setReg .sp (contextLoad s₂.mem (L.context 0) .sp)).reg .sp).toNat
      = L.taskTrapFrame 0 := by
    have hlt := frame_lt L 0
    rw [Hart.setReg_reg, if_pos rfl]
    change (contextLoad s₁.mem (L.context 0) .sp).toNat = _
    rw [h.fresh.sp, BitVec.toNat_ofNat]
    omega
  obtain ⟨hret, hm⟩ := trapReturn_spec (m := s₂.mem) hsp (frame_lt L 0)
  generalize trapReturn (s₂.hart.setReg .sp (contextLoad s₂.mem (L.context 0) .sp), s₂.mem) = r
    at hret hm
  change r.2 = s₁.mem at hm
  have hmem' : ((s₂.setState 0 .running).after r).mem = s₁.mem := hm
  have hstates : ((s₂.setState 0 .running).after r).sched
      = ⟨0, Function.update (fun _ => .dead) 0 .running⟩ := by
    refine Sched.ext hcurrent ?_
    change Function.update s₁.sched.taskStates 0 .running = _
    rw [h.sched, hsched, Function.update_idem]
  -- from `task_init` on nothing is written to memory
  have hb : OnBehalf L fits ∅ 0 s₁ ((s₂.setState 0 .running).after r) := by
    refine OnBehalf.of_kernelWrite (A := ∅) h.onBehalf.memOk ?_
      (fun a ha => absurd ha (Set.notMem_empty a)) (fun _ => by rw [hmem']) rfl rfl
      (fun id => ?_) fun _ _ => rfl
    · rw [hmem']
      exact ChangedIn.refl _ _
    · rw [Machine.Live, Machine.Live, hstates, h.sched, hsched]
      by_cases hid : id = 0
      · simp [hid]
      · simp [hid]
  refine ⟨⟨hb.memOk, hstates, ?_, hret.priv, ?_, ?_, ?_, ?_⟩, ?_, fun x => ?_, ?_,
    fun a hlo hhi => ?_⟩
  · rw [hmem']
    exact hret.satp.trans (by simp [hs₂])
  · exact hret.mscratch.trans (L.kernelStackEnd_eq 0).symm
  · rw [hmem']
    exact h.userStack
  · have hroot := h.onBehalf.rootTables
    rw [hmem']
    change (sv39.tables s₁.mem 3 s₁.rootPageTable).card ≤ 133
    rw [h.onBehalf.root, hroot]
    exact hcard
  · rw [hmem']
    exact h.card
  · refine hret.pc.trans ((h.frame .epc).trans ?_)
    rw [if_neg (by decide), if_pos rfl]
  · refine (hret.reg x).trans ((h.frame (regField x)).trans ?_)
    rw [if_neg (regField_ne_epc x)]
    have hfield : regField x = .userSp ↔ x = .sp := by cases x <;> decide
    exact if_congr hfield rfl rfl
  · rw [hmem']
    exact hmapped
  · rw [hmem']
    exact h.onBehalf.text a hlo hhi

/-- The kernel boots if there are enough pages. -/
theorem osMain_spec [NeZero n] (L : Layout n) (fits : Prop) (h : Hart) (m : Mem) :
    Outcome (L.managed.card < 135 + L.initPages) (fun s => AtBoot L fits s ∧ FirstTask L m s)
      (osMain L h m) := by
  obtain ⟨phys, free, hinit, hf, hmanaged, hoff⟩ := pageInit_spec L m
  have hcard : L.managed.card = free.length := by rw [← hmanaged, Multiset.coe_card]
  rw [osMain, hinit, Option.bind_some]
  refine Outcome.bind ((mmuInit_spec hf).mono (fun hstuck => by omega) fun _ h => h) ?_
  rintro ⟨root, t⟩ ⟨taken, free', hlen, htaken⟩
  dsimp only at htaken ⊢
  set s₀ : Machine n :=
    { hart := h.setCsr .satp (mmuMakeSatp root)
      phys := t
      rootPageTable := root
      sched := { currentTask := 0, taskStates := fun _ => .dead }
      taskUserStacks := fun _ => 0 } with hs₀
  have hdead : ∀ id, ¬ s₀.Live id := fun id => not_not.mpr rfl
  have hmem : MemOk L fits s₀ := memOk_of_noTask hmanaged htaken rfl rfl hdead
  refine Outcome.bind ((taskInit_spec hmem (hdead 0) L.taskShell).mono (fun hstuck => ?_)
    fun _ h => h) ?_
  · have hshort := hstuck free' htaken.isFree
    rw [htaken.free_eq, List.length_append] at hcard
    omega
  · intro s₁ hs₁
    have hroot : (sv39.tables s₀.mem 3 s₀.rootPageTable).card ≤ 133 := by
      change (sv39.tables t.mem 3 root).card ≤ 133
      rw [htaken.tables, Multiset.coe_card]
      exact hlen
    obtain ⟨hat, hfirst⟩ := atBoot_of_created hs₁.1 hs₁.2 rfl hroot
    refine ⟨hat, { hfirst with text := fun a hlo hhi => ?_ }⟩
    -- until then only pages outside the kernel image were written
    have hout : pageOf a ∉ L.managed := by
      rw [Layout.mem_managed]
      have := pageOf_add_mod a
      have := L.rodataEnd_le_kernelEnd
      omega
    have htables : pageOf a ∉ (taken : Multiset ℕ) := by
      intro hmem
      refine hout ?_
      rw [← hmanaged, htaken.free_eq]
      exact Multiset.mem_coe.mpr (List.mem_append_left _ hmem)
    rw [hfirst.text a hlo hhi, ← hoff a hout]
    exact htaken.eqOff a htables

/-- A system that has just been booted satisfies the invariant. -/
theorem AtBoot.inv [NeZero n] (h : AtBoot L fits s) :
    Inv L fits ⟨s, .user, fun _ => none⟩ := by
  have hcurrent : s.sched.currentTask = 0 := by rw [h.sched]
  have hstates : ∀ id, s.sched.taskStates id = if id = 0 then .running else .dead := by
    intro id
    rw [h.sched]
    change Function.update (fun _ => TaskState.dead) 0 .running id = _
    rw [Function.update_apply]
  refine ⟨h.memOk, fun id => ?_, ?_, fun _ => ?_, fun hres => ?_, fun id hid hother => ?_⟩
  · change s.sched.taskStates id = .running ↔ id = s.sched.currentTask
    rw [hstates, hcurrent]
    split_ifs with hid <;> simp [hid]
  · change s.hart.csr .satp = contextLoad s.mem (L.context s.sched.currentTask) .satp
    rw [hcurrent, h.satp]
  · change s.hart.priv = .user ∧ (s.hart.csr .mscratch).toNat
      = L.kernelStackEnd s.sched.currentTask
    rw [hcurrent]
    exact ⟨h.priv, h.mscratch⟩
  · cases hres
  · -- there is no other task
    change s.sched.taskStates id ≠ .dead at hid
    change id ≠ s.sched.currentTask ∨ Phase.user = Phase.resuming at hother
    rw [hcurrent] at hother
    rw [hstates, if_neg (hother.resolve_right (by simp))] at hid
    exact absurd rfl hid

theorem Booted.atBoot [NeZero n] {c : Config n} (h : Booted L c) : AtBoot L fits c.machine := by
  obtain ⟨hart, m, hmain, -⟩ := h
  exact ((osMain_spec L fits hart m).post_of_eq_some hmain).1

theorem Booted.inv [NeZero n] {c : Config n} (h : Booted L c) : Inv L fits c := by
  have hboot : AtBoot L fits c.machine := h.atBoot
  obtain ⟨hart, m, -, hphase, hsuspended⟩ := h
  obtain ⟨s, phase, suspended⟩ := c
  obtain rfl : phase = .user := hphase
  obtain rfl : suspended = fun _ => none := hsuspended
  exact hboot.inv

end RiscvKernel
