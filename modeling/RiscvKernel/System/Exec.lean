import RiscvKernel.System.Service

/-!
# Exec

What `task_exec` does: it fails and changes nothing, or the current task gets a new address space
and the pages of its old one go back to the free list (`taskExec_spec`).
-/

namespace RiscvKernel

open ByteMemory RadixTable Riscv

variable {n : ℕ} {L : Layout n} {fits : Prop} {W : Set ℕ} {c : Fin n} {s : Machine n}
  {img : AppImage} {entry : Word} {tf p q : ℕ}

/-- The embedded image is one that `task_exec` loads. -/
def AppImage.Loads (img : AppImage) : Prop := img.HasMagic ∧ validateExecImage img = .ok ()

/-- The pages that `task_exec` maps use different leaf entries, if it maps any. -/
def AppImage.Fits (img : AppImage) : Prop :=
  validateExecImage img = .ok () → (mappedPages img).Pairwise fun p q => leafSlot p ≠ leafSlot q

/-- The memory after the writes of `task_exec` to kernel data. -/
def execWrites (L : Layout n) (c : Fin n) (entry : Word) (q : ℕ) (m : Mem) : Mem :=
  bindTaskPageTable L c q (tfStore (tfStore (trapframeClear (L.taskTrapFrame c) m)
    (L.taskTrapFrame c) .epc entry) (L.taskTrapFrame c) .userSp userStackTop)

/-- `task_exec` binds the page table and sets up the trapframe. -/
theorem execWrites_spec (L : Layout n) (c : Fin n) (entry : Word) (q : ℕ) (m : Mem) :
    ChangedIn (kernelPart L c) m (execWrites L c entry q m) ∧
      contextLoad (execWrites L c entry q m) (L.context c) .satp = mmuMakeSatp q ∧
      ∀ f, tfLoad (execWrites L c entry q m) (L.taskTrapFrame c) f
        = if f = .userSp then userStackTop else if f = .epc then entry else 0#64 := by
  obtain ⟨hclear, hzero⟩ := trapframeClear_spec m (L.taskTrapFrame c)
  set m₁ := trapframeClear (L.taskTrapFrame c) m
  obtain ⟨hchanged, hsatp, -⟩ := bindTaskPageTable_spec L c q
    (tfStore (tfStore m₁ (L.taskTrapFrame c) .epc entry) (L.taskTrapFrame c) .userSp userStackTop)
  have hframe := (changedIn_frame L c m₁ .epc entry).trans
    (changedIn_frame L c _ .userSp userStackTop)
  refine ⟨?_, hsatp, fun f => ?_⟩
  · exact ((hclear.mono fun a ha => Or.inr (mem_stackRange_of_frame ha.1 ha.2)).trans
      (hframe.mono fun a ha => Or.inr ha)).trans (hchanged.mono fun a ha => Or.inl ha)
  · -- the context is no part of the kernel stack
    have hstack : ∀ a ∈ L.stackRange c, execWrites L c entry q m a = tfStore (tfStore m₁
        (L.taskTrapFrame c) .epc entry) (L.taskTrapFrame c) .userSp userStackTop a :=
      fun a ha => hchanged a fun hmem => Layout.contextRange_not_stack hmem ha
    rw [tfLoad_congr hstack, tfLoad_tfStore, tfLoad_tfStore, hzero]

/-- The end of `task_exec` in two parts: the writes to kernel data, and the old page table. -/
theorem finishExec_eq (hc : s.sched.currentTask = c) (entry : Word) (p q : ℕ) (t : Phys) :
    finishExec L entry p q (L.taskTrapFrame c) { s with phys := t } = { s with
      hart := s.hart.setCsr .satp (contextLoad (execWrites L c entry q t.mem) (L.context c) .satp)
      phys := freeUserPageTable L.kernelEnd s.rootPageTable p
        { t with mem := execWrites L c entry q t.mem } } := by
  rw [finishExec, execWrites, ← hc]
  rfl

/-- The end of `task_exec`, once the image has been loaded. -/
theorem serviced_finishExec {free : List ℕ} {t : Phys} (h : Entered L fits c s)
    (hspaces : Spaces L fits s.phys s.rootPageTable (pgds L s) free) (hq : IsPage q)
    (hm : EqOff ↑free s.mem t.mem)
    (hload : ∀ u : Phys, u.freeList = t.freeList → EqOff L.image t.mem u.mem →
      let u' := freeUserPageTable L.kernelEnd s.rootPageTable (taskPageTable L s.mem c) u
      EqOff (ownedPages L s c) u.mem u'.mem ∧ ∃ free', Spaces L fits u' s.rootPageTable
        (Function.update (pgds L s) c (some q)) free') :
    Serviced L fits W c s (finishExec L entry (taskPageTable L s.mem c) q (L.taskTrapFrame c)
      { s with phys := t }) := by
  obtain ⟨hchanged, hsatp, -⟩ := execWrites_spec L c entry q t.mem
  rw [finishExec_eq h.current]
  generalize execWrites L c entry q t.mem = m at hchanged hsatp
  have himage : EqOff L.image t.mem m :=
    Layout.eqOff_image hchanged fun a ha => (mem_kernelPart_bounds ha).2
  obtain ⟨hfreed, free', hspaces'⟩ := hload { t with mem := m } rfl himage
  generalize freeUserPageTable L.kernelEnd s.rootPageTable (taskPageTable L s.mem c)
    { t with mem := m } = phys' at hfreed hspaces'
  have howned : ∀ x ∈ ownedPages L s c,
      x ∈ (free : Multiset ℕ) + ownedBy L.kernelEnd s.mem (pgds L s c) := by
    intro x hx
    rw [pgds_of_live h.live]
    exact Multiset.mem_add.mpr (Or.inr hx)
  have hfree : ∀ x ∈ (free : Multiset ℕ),
      x ∈ (free : Multiset ℕ) + ownedBy L.kernelEnd s.mem (pgds L s c) :=
    fun x hx => Multiset.mem_add.mpr (Or.inl hx)
  -- giving back the old pages writes to no kernel data
  have hlow : ∀ a, a < L.kernelEnd → phys'.mem a = m a :=
    fun a ha => hspaces.eq_below c hfreed howned ha
  have hcontext : ∀ f, contextLoad phys'.mem (L.context c) f = contextLoad m (L.context c) f :=
    contextLoad_congr fun a ha => hlow a (Layout.mem_contextRange_bounds ha).2
  refine ⟨?_, rfl, fun _ => ?_, fun id hid hid' => absurd hid' hid⟩
  · refine OnBehalf.of_spaces h.memOk hspaces (some q) hspaces'
      ((hm.trans himage).trans hfreed) (fun x hx => ?_) (fun a ha hpart => ?_)
      (fun hnone => by cases hnone) (fun p hp => ?_) (fun _ _ => Iff.rfl) rfl (fun _ _ => rfl)
    · rcases Multiset.mem_add.mp hx with hx | hx
      · rcases Multiset.mem_add.mp hx with hx | hx
        · exact Or.inr (hfree x hx)
        · exact Or.inl hx
      · exact Or.inr (howned x hx)
    · change phys'.mem a = s.mem a
      rw [hlow a ha, hchanged a hpart]
      exact hspaces.eq_below c hm hfree ha
    · obtain rfl := Option.some.inj hp
      exact ⟨h.live, hq, (hcontext .satp).trans hsatp⟩
  · change (s.hart.setCsr .satp _).csr .satp = contextLoad phys'.mem _ _
    rw [Hart.setCsr_csr, if_pos rfl, hcontext]

/-- `task_exec` fails and changes nothing, or gives the current task another address space; it
hangs only if the free pages do not suffice. -/
theorem taskExec_spec (h : Entered L fits c s) (hfits : fits → img.Fits) (epc : Word) :
    Outcome (img.Loads ∧ ∀ free, FreePages s.phys free →
        free.length < 4 + 3 * (segmentPages img).length)
      (fun r => (¬ img.Loads ∧ r = (epc + 4#64, s)) ∨ (img.Loads ∧ r.1 = img.ehdr.eEntry ∧
        Serviced L fits W c s r.2 ∧ r.2.sched = s.sched))
      (taskExec L img epc (L.taskTrapFrame c) s) := by
  rw [taskExec]
  by_cases hmagic : img.HasMagic
  swap
  · -- no ELF file
    rw [if_pos hmagic]
    exact Or.inl ⟨fun hloads => hmagic hloads.1, rfl⟩
  rw [if_neg (not_not.mpr hmagic)]
  split
  · case h_1 e herror =>
    refine Or.inl ⟨fun hloads => ?_, rfl⟩
    rw [hloads.2] at herror
    cases herror
  case h_2 u hok =>
  have hloads : img.Loads := ⟨hmagic, hok⟩
  obtain ⟨free, hspaces⟩ := h.memOk.spaces
  -- the only thing that can go wrong from here on is a lack of pages
  have hload := hspaces.loadImage (pgds_of_live h.live) fun hf => hfits hf hok
  refine Outcome.bind (hload.mono (fun hstuck => ⟨hloads, fun free' hfree' => ?_⟩) fun _ => id) ?_
  · rwa [hfree'.unique hspaces.isFree]
  rintro ⟨q, t⟩ ⟨hq, hm, hfreed⟩
  refine Or.inr ⟨hloads, rfl, ?_, rfl⟩
  dsimp only at hq hm hfreed ⊢
  rw [h.current]
  exact serviced_finishExec h hspaces hq hm hfreed

theorem Entered.doSysExecve_good {r : Handled n} {epc : Word} (h : Entered L fits c s)
    (arg0 arg1 : Word)
    (hfits : fits → img.Fits)
    (hr : doSysExecve L img arg0 arg1 epc (L.taskTrapFrame c) s = some r) :
    r.Good L fits W c s := by
  rw [doSysExecve, Option.bind_eq_some_iff] at hr
  obtain ⟨⟨v, s'⟩, hexec, hr⟩ := hr
  obtain rfl := Option.some.inj hr
  rcases (taskExec_spec (W := W) h hfits epc).post_of_eq_some hexec with
    ⟨-, heq⟩ | ⟨-, -, hserviced, hsched⟩
  · obtain ⟨-, rfl⟩ := Prod.mk.inj heq
    exact ⟨h.serviced, h.sched, h.current⟩
  · dsimp only at hserviced hsched
    refine ⟨hserviced, ?_, ?_⟩
    · rw [hsched]
      exact h.sched
    · rw [hsched]
      exact h.current

end RiscvKernel
