import RiscvKernel.System.Service

/-!
# Fork

What `task_fork` does when it returns a slot (`Forked`): the slot was free, and it now has a copy
of the address space of the current task, a copy of its trapframe with two fields changed, and a
context that leads to `trap_return`. All other tasks, the current one included, are as they were.

* `finishFork_spec`: the part of `task_fork` that writes to kernel data.
* `taskFork_spec`: the whole function.
-/

namespace RiscvKernel

open ByteMemory RadixTable Riscv

variable {n : ℕ}

/-- `task_fork` has made slot `d` a copy of the current task, whose trapframe is at `tf`. -/
structure Forked (L : Layout n) (fits : Prop) (tf : ℕ) (epc : Word) (d : Fin n)
    (s s' : Machine n) : Prop where
  dead : ¬ s.Live d
  onBehalf : OnBehalf L fits ∅ d s s'
  hart : s'.hart = s.hart
  sched : s'.sched
    = { s.sched with taskStates := Function.update s.sched.taskStates d .ready }
  fresh : Fresh L s'.mem d
  frame : ∀ f, tfLoad s'.mem (L.taskTrapFrame d) f
    = if f = .a0 then 0#64 else if f = .epc then epc + 4#64 else tfLoad s.mem tf f
  space : SameSpace s.mem s'.mem (taskPageTable L s.mem s.sched.currentTask)
    (taskPageTable L s'.mem d)
  card : (sv39.pages s'.mem 3 (taskPageTable L s'.mem d)).card
    = (sv39.pages s.mem 3 (taskPageTable L s.mem s.sched.currentTask)).card
  userStack : ∃ e, leafEntry s'.mem (taskPageTable L s'.mem d) userStackPageVa = some e ∧
    s'.taskUserStacks d = pteToPa e

variable {L : Layout n} {fits : Prop} {c d : Fin n} {s : Machine n} {epc : Word} {p : ℕ}

/-! ### The stack page -/

/-- The walk finds the entry of an address that has one. -/
theorem walkPte_of_leafEntry {t : Phys} {va e : Word} (hp : PageAligned p)
    (he : leafEntry t.mem p va = some e) :
    ∃ a, walkPte p va false t = some (a, t) ∧ loadWord t.mem a = e ∧ e &&& pteV ≠ 0 ∧
      ∃ q ∈ sv39.tables t.mem 3 p, PageAligned q ∧ ∃ i < 512, a = q + 8 * i := by
  obtain ⟨a, q, ha, hload, hq⟩ := EntryFormat.exists_slot_of_leafAt he
  obtain ⟨t', ht', hal, rfl⟩ := EntryFormat.slot_mem (getVpn_lt va) hp ha
  have hi := getVpn_lt va 0
  rw [sv39_entries] at hi
  refine ⟨_, ?_, hload, ?_, t', ht', hal, _, hi, rfl⟩
  · rw [walkPte, walkLevels_eq, ha, Option.getD_some]
  · intro hv
    rw [sv39_child_of_not_valid (not_not.mpr hv)] at hq
    cases hq

/-! ### Kernel data -/

/-- The memory of kernel data when slot `d` has been bound to a copy of slot `c`. -/
theorem finishFork_spec (p pte : ℕ) (epc : Word) (hne : c ≠ d) (hc : s.sched.currentTask = c) :
    let s' := finishFork L d p pte (L.taskTrapFrame c) epc s
    ChangedIn (kernelPart L d) s.mem s'.mem ∧ Fresh L s'.mem d ∧
      contextLoad s'.mem (L.context d) .satp = mmuMakeSatp p ∧
      ∀ f, tfLoad s'.mem (L.taskTrapFrame d) f = if f = .a0 then 0#64
        else if f = .epc then epc + 4#64 else tfLoad s.mem (L.taskTrapFrame c) f := by
  intro s'
  have hval : c.val ≠ d.val := fun h => hne (Fin.ext h)
  have hframes : L.taskTrapFrame d + sizeofTrapframe ≤ L.taskTrapFrame c ∨
      L.taskTrapFrame c + sizeofTrapframe ≤ L.taskTrapFrame d := by
    simp only [Layout.taskTrapFrame, Layout.kernelStack, sizeofTrapframe]
    omega
  have hcontexts : L.context d + sizeofContext ≤ L.context c ∨
      L.context c + sizeofContext ≤ L.context d := by
    simp only [Layout.context, sizeofContext]
    omega
  -- the trapframe, then the context, then two fields of the trapframe
  obtain ⟨hchanged₁, hframe₁⟩ := trapframeCopy_spec s.mem hframes
  set m₁ := trapframeCopy (L.taskTrapFrame d) (L.taskTrapFrame c) s.mem
  obtain ⟨hchanged₂, -⟩ := contextCopy_spec m₁ hcontexts
  set m₂ := contextCopy (L.context d) (L.context c) m₁
  obtain ⟨hchanged₃, hfresh₃⟩ := bindTaskFrame_spec L d m₂
  set m₃ := bindTaskFrame L d (L.taskTrapFrame d) m₂
  obtain ⟨hchanged₄, hsatp₄, hfresh₄⟩ := bindTaskPageTable_spec L d p m₃
  set m₄ := bindTaskPageTable L d p m₃
  have hmem : s'.mem = tfStore (tfStore m₄ (L.taskTrapFrame d) .epc (epc + 4#64))
      (L.taskTrapFrame d) .a0 0#64 := by
    simp only [s', finishFork, hc]
    rfl
  have hcontext : ChangedIn (L.contextRange d) m₁ m₄ :=
    (hchanged₂.trans hchanged₃).trans hchanged₄
  have hlast : ChangedIn (L.stackRange d) m₄ s'.mem := by
    rw [hmem]
    exact (changedIn_frame L d _ _ _).trans (changedIn_frame L d _ _ _)
  have hkeep : ∀ a ∈ L.contextRange d, s'.mem a = m₄ a :=
    fun a ha => hlast a (Layout.contextRange_not_stack ha)
  refine ⟨?_, (hfresh₄ hfresh₃).congr hkeep, ?_, fun f => ?_⟩
  · exact ((hchanged₁.mono fun a ha => Or.inr (mem_stackRange_of_frame ha.1 ha.2)).trans
      (hcontext.mono fun a ha => Or.inl ha)).trans (hlast.mono fun a ha => Or.inr ha)
  · rw [contextLoad_congr hkeep, hsatp₄]
  · have hframe₄ : tfLoad m₄ (L.taskTrapFrame d) f = tfLoad m₁ (L.taskTrapFrame d) f :=
      tfLoad_congr (fun a ha => hcontext a fun hmem => Layout.contextRange_not_stack hmem ha) f
    rw [hmem, tfLoad_tfStore, tfLoad_tfStore, hframe₄, hframe₁]

/-! ### The whole function -/

theorem allocTaskSlot_eq_some {states : Fin n → TaskState} (h : allocTaskSlot states = some d) :
    states d = .dead := by
  simpa using List.find?_some h

theorem allocTaskSlot_eq_none {states : Fin n → TaskState} (h : allocTaskSlot states = none)
    (id : Fin n) : states id ≠ .dead := by
  rw [allocTaskSlot, List.find?_eq_none] at h
  simpa using h id (List.mem_finRange id)

/-- The end of `task_fork`, once the address space has been copied. -/
theorem forked_of_copied {free free' : List ℕ} {t : Phys} {q : ℕ} {e : Word}
    (h : Entered L fits c s) (hdead : ¬ s.Live d)
    (hspaces : Spaces L fits s.phys s.rootPageTable (pgds L s) free)
    (hspaces' : Spaces L fits t s.rootPageTable (Function.update (pgds L s) d (some q)) free')
    (hm : EqOff ↑free s.mem t.mem) (hsame : SameSpace s.mem t.mem (taskPageTable L s.mem c) q)
    (hcard : (sv39.pages t.mem 3 q).card = (sv39.pages s.mem 3 (taskPageTable L s.mem c)).card)
    (he : leafEntry t.mem q userStackPageVa = some e) (hload : loadWord t.mem pte = e)
    (hpte : ∃ x ∈ sv39.tables t.mem 3 q, PageAligned x ∧ ∃ i < 512, pte = x + 8 * i) :
    Forked L fits (L.taskTrapFrame c) epc d s
      (finishFork L d q pte (L.taskTrapFrame c) epc { s with phys := t }) := by
  have hne : c ≠ d := by
    rintro rfl
    exact hdead h.live
  obtain ⟨hchanged, hfresh, hsatp, hframe⟩ :=
    @finishFork_spec n L c d { s with phys := t } q pte epc hne h.current
  set s' := finishFork L d q pte (L.taskTrapFrame c) epc { s with phys := t }
  change ChangedIn (kernelPart L d) t.mem s'.mem at hchanged
  have himage : EqOff L.image t.mem s'.mem :=
    Layout.eqOff_image hchanged fun a ha => (mem_kernelPart_bounds ha).2
  have hpq : Function.update (pgds L s) d (some q) d = some q := Function.update_self _ _ _
  have hq := hspaces'.isPage_pgd hpq
  have hpgd : taskPageTable L s'.mem d = q := taskPageTable_eq hq hsatp
  -- the last writes are to kernel data, which no page of the child is part of
  have hout : ∀ x ∈ owned L.kernelEnd t.mem 3 q, x ∉ L.image := fun x hx himg =>
    Layout.notMem_managed_of_image himg
      (hspaces'.mem_managed (.task d) ((Spaces.mem_held_task hpq).mpr hx))
  have hentry : ∀ va, leafEntry s'.mem q va = leafEntry t.mem q va :=
    fun va => leafEntry_eqOff himage hq.aligned hout
  have hfree : ∀ x ∈ (free : Multiset ℕ), x ∈ (free : Multiset ℕ) +
      ownedBy L.kernelEnd s.mem (pgds L s d) := fun x hx => Multiset.mem_add.mpr (Or.inl hx)
  have hbelow : ∀ a, a < L.kernelEnd → t.mem a = s.mem a :=
    fun a ha => hspaces.eq_below d hm hfree ha
  refine ⟨hdead, ?_, rfl, rfl, hfresh, fun f => ?_, ?_, ?_, e, ?_, ?_⟩
  · refine OnBehalf.of_born h.memOk hspaces (hspaces'.eqOff_image himage) (hm.trans himage)
      (fun x hx => ?_) (fun a ha hpart => ?_) hsatp rfl rfl
      (fun id hid => Function.update_of_ne hid _ _)
    · exact (Multiset.mem_add.mp hx).symm
    · rw [hchanged a hpart, hbelow a ha]
  · rw [hframe f]
    -- the frame of the parent is kernel data, which the copy of the pages leaves alone
    congr 2
    refine tfLoad_congr (fun a ha => hbelow a ?_) f
    exact (Layout.mem_stackRange_bounds ha).2
  · rw [hpgd, h.current]
    refine hsame.congr_right hentry fun va e' he' b hb => hchanged _ fun hpart => ?_
    have hbounds := mem_kernelPart_bounds hpart
    have hok := ((hspaces'.ok d q hpq).leafOk va e' he').byte_bounds hb
    omega
  · rw [hpgd, h.current, ← hcard]
    refine congrArg _ (EntryFormat.nodes_eqOff himage hq.aligned fun x hx => hout x ?_)
    exact Multiset.mem_of_le (EntryFormat.tables_le_nodes _ _ _ _) hx
  · rw [hpgd, hentry, he]
  · -- the entry that `walk_pte` found is in a table of the child
    obtain ⟨x, hx, hal, i, hi, rfl⟩ := hpte
    have hstack : s'.taskUserStacks d = pteToPa (loadWord s'.mem (x + 8 * i)) :=
      Function.update_self _ _ _
    rw [hstack, himage.loadWord_eq hal hi (hout x ?_), hload]
    exact Multiset.mem_of_le (EntryFormat.tables_le_nodes _ _ _ _) hx

/-- `task_fork` fails when all slots are in use, and otherwise makes a copy of the current task
in the first free slot; it hangs only if the free pages do not suffice. -/
theorem taskFork_spec (h : Entered L fits c s) (epc : Word) :
    Outcome (∀ free, FreePages s.phys free →
        free.length < (sv39.pages s.mem 3 (taskPageTable L s.mem c)).card)
      (fun r => (r = (none, s) ∧ ∀ id, s.Live id) ∨
        ∃ d, r.1 = some d ∧ allocTaskSlot s.sched.taskStates = some d ∧
          Forked L fits (L.taskTrapFrame c) epc d s r.2)
      (taskFork L (L.taskTrapFrame c) epc s) := by
  rw [taskFork]
  split
  · case h_1 halloc => exact Or.inl ⟨rfl, allocTaskSlot_eq_none halloc⟩
  case h_2 d halloc =>
  have hdead : ¬ s.Live d := not_not.mpr (allocTaskSlot_eq_some halloc)
  obtain ⟨free, hspaces⟩ := h.memOk.spaces
  have hcopy := hspaces.copyUserPageTable (pgds_of_live h.live) (pgds_of_not_live hdead)
  rw [h.current]
  refine Outcome.bind (hcopy.mono (fun hstuck free' hfree' => ?_) fun _ => id) ?_
  · rwa [hfree'.unique hspaces.isFree]
  rintro ⟨q, t⟩ ⟨free', hspaces', hm, hsame, hcard⟩
  dsimp only at hspaces' hm hsame hcard ⊢
  have hpq : Function.update (pgds L s) d (some q) d = some q := Function.update_self _ _ _
  have hq := hspaces'.isPage_pgd hpq
  obtain ⟨e, he⟩ := Option.ne_none_iff_exists'.mp (hspaces'.ok d q hpq).stack
  obtain ⟨pte, hwalk, hload, hv, x, hx, hal, i, hi, rfl⟩ := walkPte_of_leafEntry hq.aligned he
  -- the entry of the stack page is there, so the copy is not given up
  have hpos : x + 8 * i ≠ 0 := by
    have hheld := Multiset.mem_of_le (EntryFormat.tables_le_nodes (ownedFrame L.kernelEnd) _ _ _) hx
    have := (hspaces'.isPage (.task d) ((Spaces.mem_held_task hpq).mpr hheld)).pos
    omega
  rw [hwalk, Option.bind_some]
  dsimp only
  rw [if_neg]
  · exact Or.inr ⟨d, rfl, halloc,
      forked_of_copied h hdead hspaces hspaces' hm hsame hcard he hload ⟨x, hx, hal, i, hi, rfl⟩⟩
  · rintro (hzero | hvalid)
    · exact hpos hzero
    · change ¬ loadWord t.mem _ &&& pteV ≠ 0 at hvalid
      rw [hload] at hvalid
      exact hvalid hv

/-! ### The system call -/

theorem Forked.serviced {s' : Machine n} {W : Set ℕ}
    (hf : Forked L fits (L.taskTrapFrame c) epc d s s') (h : Entered L fits c s) :
    Serviced L fits W c s s' ∧ s'.sched.Ok ∧ s'.sched.currentTask = c := by
  have hne : c ≠ d := by
    rintro rfl
    exact hf.dead h.live
  -- the child is ready, and the others are what they were
  have hstates : ∀ id, s'.sched.taskStates id
      = if id = d then .ready else s.sched.taskStates id := by
    intro id
    rw [hf.sched]
    exact Function.update_apply ..
  have hcurrent : s'.sched.currentTask = s.sched.currentTask := by rw [hf.sched]
  refine ⟨⟨?_, by rw [hf.hart], fun _ => ?_, fun id hid hid' => ?_⟩, fun id => ?_, ?_⟩
  · exact (hf.onBehalf.of_not_live hf.dead).mono fun a ha => absurd ha (Set.notMem_empty a)
  · have hspared := hf.onBehalf.spared c hne h.live
    rw [hf.hart, h.satp]
    refine (contextLoad_congr (fun a ha => ?_) .satp).symm
    exact hspared.bytes a (Or.inl (Or.inl ha)) (Set.notMem_empty a)
  · by_cases hd : id = d
    · exact hd ▸ hf.fresh
    · rw [Machine.Live, hstates, if_neg hd] at hid'
      exact absurd hid' hid
  · rw [hstates, hcurrent, h.current]
    split_ifs with hd
    · simp [hd, hne.symm]
    · rw [h.sched, h.current]
  · rw [hcurrent, h.current]

theorem Entered.doSysClone_good {r : Handled n} {W : Set ℕ} (h : Entered L fits c s)
    (arg0 arg1 : Word)
    (hr : doSysClone L arg0 arg1 epc (L.taskTrapFrame c) s = some r) : r.Good L fits W c s := by
  rw [doSysClone, Option.bind_eq_some_iff] at hr
  obtain ⟨⟨child, s'⟩, hfork, hr⟩ := hr
  obtain rfl := Option.some.inj hr
  rcases (taskFork_spec h epc).post_of_eq_some hfork with ⟨heq, -⟩ | ⟨d, -, -, hf⟩
  · obtain ⟨-, rfl⟩ := Prod.mk.inj heq
    exact ⟨h.serviced.withStack (changedIn_frame L c _ _ _), h.sched, h.current⟩
  · obtain ⟨hserviced, hok, hcurrent⟩ := hf.serviced h
    exact ⟨hserviced.withStack (changedIn_frame L c _ _ _), hok, hcurrent⟩

end RiscvKernel
