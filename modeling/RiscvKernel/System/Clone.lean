import RiscvKernel.System.Registers

/-!
# Clone

What the clone system call has done by the time its caller is back in user mode (`Cloned`), and
what becomes of it.

* `clone_snapshot`: whenever the child first runs, it starts as a copy of its parent at the call.
* `clone_told_apart_iff`: parent and child get different results exactly when slot 0 was in use.
* `failed_clone`: a clone that finds no slot changes nothing but the result.
-/

namespace RiscvKernel

open ByteMemory RadixTable Riscv Relation

variable {n : ℕ}

/-- The task that was current in `c` has cloned itself into slot `d`, and is back in `c'`. -/
structure Cloned (L : Layout n) (d : Fin n) (c c' : Config n) : Prop where
  phase : c'.phase = .user
  sched : c'.machine.sched = { c.machine.sched with
    taskStates := Function.update c.machine.sched.taskStates d .ready }
  slot : allocTaskSlot c.machine.sched.taskStates = some d
  fresh : Fresh L c'.machine.mem d
  pc : tfLoad c'.machine.mem (L.taskTrapFrame d) .epc = c.machine.hart.pc + 4#64
  reg : ∀ x, tfLoad c'.machine.mem (L.taskTrapFrame d) (regField x)
    = if x = .a0 then 0#64 else c.machine.hart.reg x
  space : SameSpace c.machine.mem c'.machine.mem (taskPageTable L c.machine.mem c.current)
    (taskPageTable L c'.machine.mem d)
  card : (sv39.pages c'.machine.mem 3 (taskPageTable L c'.machine.mem d)).card
    = (sv39.pages c.machine.mem 3 (taskPageTable L c.machine.mem c.current)).card
  userStack : ∃ e, leafEntry c'.machine.mem (taskPageTable L c'.machine.mem d) userStackPageVa
    = some e ∧ c'.machine.taskUserStacks d = pteToPa e
  result : tfLoad c'.machine.mem (L.taskTrapFrame c.current) .a0 = BitVec.ofNat 64 d
  parentReg : ∀ x, x ≠ .a0 → c'.machine.hart.reg x = c.machine.hart.reg x
  parentPc : c'.machine.hart.pc = c.machine.hart.pc + 4#64
  parentUser : SameUser L c.machine c'.machine c.current

variable {L : Layout n} {img : AppImage} {fits : Prop} {c c₁ c₂ c₃ : Config n} {d i : Fin n}
  {s s' : Machine n} {cause tval : Word} {ch : Byte} {e : Event n} {W : Set ℕ}

/-! ### The step -/

/-- What the clone system call has done. -/
theorem cloned_of_step (hc : Inv L fits c) (hfits : fits → img.Fits) (huser : c.phase = .user)
    (hcall : (.trapHandler : Service n).call cause c.machine.hart = some .clone)
    (hfork : taskFork L (L.taskTrapFrame c.current) c.machine.hart.pc
      (entered L cause tval c.machine) = some (some d, s))
    (hstep : Step L img c (.trap .trapHandler cause tval ch) c₁) : Cloned L d c c₁ := by
  have ht := entered_spec (hc.user huser).2 cause tval
  have hsafe : SafeRead L c (.trap .trapHandler cause tval ch) :=
    (noRead_of_call (by simp [hcall])).safeRead
  have hnot : ¬ (.trapHandler : Service n).Ends img cause c.machine.hart := by
    simp [Service.Ends, hcall]
  obtain ⟨r, hserve, hcont, hleft⟩ := hstep.trap_left hc hfits hsafe hnot
  -- the handler has returned the slot
  rw [serve_call ht hcall, Syscall.handler, doSysClone, hfork] at hserve
  obtain rfl := Option.some.inj hserve
  have hchild : ∃ d', some d = some d' ∧
      allocTaskSlot (entered L cause tval c.machine).sched.taskStates = some d' ∧
      Forked L fits (L.taskTrapFrame c.current) c.machine.hart.pc d'
        (entered L cause tval c.machine) s := by
    rcases (taskFork_spec (ht.entered hc.entered) c.machine.hart.pc).post_of_eq_some hfork with
      ⟨heq, -⟩ | hforked
    · cases (Prod.mk.inj heq).1
    · exact hforked
  obtain ⟨d', hd, hslot, hf⟩ := hchild
  obtain rfl := Option.some.inj hd
  have hne : c.current ≠ d := by
    rintro rfl
    exact hf.dead ((ht.live_iff _).mpr hc.live)
  -- behind `task_fork`, only kernel data of the caller changes
  have hchanged : ChangedIn (kernelPart L c.current) s.mem c₁.machine.mem :=
    ((changedIn_frame L c.current s.mem .a0 _).mono fun a ha => Or.inr ha).trans hleft.changed
  have hkept : ∀ a ∈ kernelPart L d, c₁.machine.mem a = s.mem a :=
    fun a ha => hchanged a fun hmem => kernelPart_disjoint hne hmem ha
  have hlive : s.Live d := by
    rw [Machine.Live, hf.sched]
    simp
  have hchildUser : SameUser L s c₁.machine d :=
    SameUser.of_kernelWrite hf.onBehalf.memOk hlive hchanged (fun _ => mem_kernelPart_bounds)
      (contextLoad_congr (fun a ha => hkept a (Or.inl ha)) .satp)
  have hsched : c₁.machine.sched = { c.machine.sched with
      taskStates := Function.update c.machine.sched.taskStates d .ready } := by
    rw [hleft.sched, ← ht.sched]
    exact hf.sched
  have hentered := ht.sameUser hc.memOk hc.live
  have hcurrent : (entered L cause tval c.machine).sched.currentTask = c.current := by
    rw [ht.sched, Config.current]
  have hspace := hf.space
  have hcard := hf.card
  rw [hcurrent] at hspace hcard
  obtain ⟨e, he, hstack⟩ := hf.userStack
  rcases hleft.goes with ⟨hphase, -, hres, -⟩ | ⟨-, hcur, -⟩
  swap
  · rw [Config.current, hsched] at hcur
    exact absurd rfl hcur
  have hsurvived := Survived.of_restored hc huser hcont hres
  have hframe : ∀ f, tfLoad c₁.machine.mem (L.taskTrapFrame d) f
      = tfLoad s.mem (L.taskTrapFrame d) f := tfLoad_congr fun a ha => hkept a (Or.inr ha)
  refine ⟨hphase, hsched, by rwa [ht.sched] at hslot,
    hf.fresh.congr fun a ha => hkept a (Or.inl ha),
    ?_, fun x => ?_, ?_, ?_, ⟨e, ?_, ?_⟩, ?_, hsurvived.reg, ?_, ?_⟩
  · rw [hframe, hf.frame, if_neg (by decide), if_pos rfl]
  · have hfield : regField x = .a0 ↔ x = .a0 := by cases x <;> decide
    rw [hframe, hf.frame, if_neg (regField_ne_epc x), ht.frame]
    exact if_congr hfield rfl rfl
  · exact ((hspace.sameUser hchildUser).symm.sameUser hentered.symm).symm
  · rw [hchildUser.pages, hcard, hentered.pages]
  · rw [hchildUser.leafEntry, he]
  · rw [hleft.userStacks]
    exact hstack
  · rw [hleft.frame .a0 (by decide)]
    exact (tfLoad_tfStore ..).trans (if_pos rfl)
  · rw [hsurvived.pc, resumePc_of_call hcall]
  · exact (hstep.trap_sameUser hc hfits (noRead_of_call (by simp [hcall])) hnot).1

/-- Cloning a task with a small page table. -/
theorem Cloned.small {B : ℕ} (h : Cloned L d c c₁) (hadv : Advanced L fits W c c₁)
    (hlive : c.machine.Live c.current) (hsmall : Small L B c.machine) : Small L B c₁.machine := by
  refine hsmall.of_onBehalf hadv.onBehalf fun id hid hcases => ?_
  by_cases hd : id = d
  · rw [hd, h.card]
    exact hsmall.task _ hlive
  · have hother : c.machine.Live id := by
      rw [Machine.Live, h.sched] at hid
      rwa [Machine.Live, ← Function.update_of_ne hd .ready c.machine.sched.taskStates]
    obtain rfl := hcases.resolve_right (not_not.mpr hother)
    rw [h.parentUser.pages]
    exact hsmall.task _ hlive

/-! ### The child -/

/-- Slot `d` starts in `c'` as a copy of the task that was current in `c`. -/
structure Snapshot (L : Layout n) (d : Fin n) (c c' : Config n) : Prop where
  phase : c'.phase = .user
  current : c'.current = d
  priv : c'.machine.hart.priv = .user
  pc : c'.machine.hart.pc = c.machine.hart.pc + 4#64
  a0 : c'.machine.hart.reg .a0 = 0
  reg : ∀ x, x ≠ .a0 → c'.machine.hart.reg x = c.machine.hart.reg x
  /-- The same pages with the same flags and the same bytes, through the tables in use. -/
  space : SameSpace c.machine.mem c'.machine.mem c.machine.pgd c'.machine.pgd
  card : (sv39.pages c'.machine.mem 3 c'.machine.pgd).card
    = (sv39.pages c.machine.mem 3 c.machine.pgd).card

/-- The slot of a child that has not run yet is left alone until it is switched to. -/
theorem Cloned.snapshot (h : Cloned L d c c₁) (hc : Inv L fits c) (hc₁ : Inv L fits c₁)
    (hfits : fits → img.Fits)
    (hrun : Run L img (fun c' e => NoRead c' e ∧ c'.current ≠ d) c₁ c₃) (hcurrent : c₃.current = d)
    (hphase : c₃.phase = .resuming) (hstep : Step L img c₃ e c₂) : Snapshot L d c c₂ := by
  have hlive : c₁.machine.Live d := by
    rw [Machine.Live, h.sched]
    simp
  have hc₃ := hc₁.run hrun hfits fun c e h => h.1.safeRead
  have halone := hc₁.run_spared (W := ∅) hrun hfits
    (fun c e h => ⟨h.1.safeRead, h.1.notMem, h.2⟩) hlive
  have hempty : ∀ a ∈ (∅ : Set ℕ), a ∈ outsideImage L := fun a ha => absurd ha (Set.notMem_empty a)
  have hfresh : Fresh L c₃.machine.mem d :=
    h.fresh.congr fun a ha => halone.spared.kernelPart_eq hempty a (Or.inl ha)
  have hframe := halone.frame_eq hempty
  have huser := halone.spared.sameUser hc₁.memOk hlive halone.text
  obtain ⟨hphase₂, hcurrent₂, ⟨-, hm, hpriv, hpc, hreg⟩ | ⟨k, v, -, hleft, -⟩⟩ :=
    hc₃.resumed hphase hstep
  swap
  · -- no call of `switch_to` is left for it
    have hra := hleft.context (.ra, .ra) (by decide)
    rw [hcurrent] at hra
    exact absurd (hleft.ra.symm.trans (hra.symm.trans hfresh.ra)) L.returns_ne
  rw [hcurrent] at hpc hreg hcurrent₂
  -- the step after a switch stores no input
  have hsafe : SafeRead L c₃ e := by
    cases hstep with
    | compute huser | store huser | returned huser | switched huser =>
      rw [hphase] at huser
      cases huser
    | fresh | tail | lost => exact noRead_resume.safeRead
  have hc₂ := (hstep.advanced hc₃ hfits hsafe).inv
  refine ⟨hphase₂, hcurrent₂, hpriv, ?_, ?_, fun x hx => ?_, ?_, ?_⟩
  · rw [hpc, hframe, h.pc]
  · rw [hreg, hframe, h.reg, if_pos rfl]
    rfl
  · rw [hreg, hframe, h.reg, if_neg hx]
  · rw [hc.pgd_eq, hc₂.pgd_eq, hcurrent₂, hm]
    exact h.space.sameUser huser
  · rw [hc.pgd_eq, hc₂.pgd_eq, hcurrent₂, hm, huser.pages, h.card]

/-- A child is switched to in one step. -/
theorem resuming_of_switched (hc : Inv L fits c) (hfits : fits → img.Fits)
    (hrun : Run L img (fun c' e => NoRead c' e ∧ c'.current ≠ d) c c₃) (hne : c.current ≠ d)
    (hcurrent : c₃.current = d) : c₃.phase = .resuming := by
  rcases hrun.cases_tail with rfl | ⟨c', hfirst, e, ⟨hno, hne'⟩, hstep⟩
  · exact absurd hcurrent hne
  · cases hphase : c₃.phase with
    | resuming => rfl
    | user =>
      have hc' := hc.run hfirst hfits fun c e h => h.1.safeRead
      have heq := hstep.current_eq hc' hfits hno.safeRead hphase
      exact absurd (heq.symm.trans hcurrent) hne'

/-- Whatever happens before the child of a clone first runs, it starts as a copy of its parent at
the call, and the parent keeps its memory and its registers other than the result. -/
theorem clone_snapshot [NeZero n] (h : Reachable L img (SafeRead L) c) (huser : c.phase = .user)
    (hcall : (.trapHandler : Service n).call cause c.machine.hart = some .clone)
    (hfork : taskFork L (L.taskTrapFrame c.current) c.machine.hart.pc
      (entered L cause tval c.machine) = some (some d, s))
    (hstep : Step L img c (.trap .trapHandler cause tval ch) c₁) :
    (c₁.current = c.current ∧ SameUser L c.machine c₁.machine c.current ∧
      ∀ x, x ≠ .a0 → c₁.machine.hart.reg x = c.machine.hart.reg x) ∧
    ∀ c₃, Run L img (fun c' e => NoRead c' e ∧ c'.current ≠ d) c₁ c₃ → c₃.current = d →
      (∃ c₂, Step L img c₃ .resume c₂) ∧ ∀ e c₂, Step L img c₃ e c₂ → Snapshot L d c c₂ := by
  have hc : Inv L False c := h.inv False.elim fun _ _ hsafe => hsafe
  have hno : NoRead c (.trap .trapHandler cause tval ch) := noRead_of_call (by simp [hcall])
  have hcloned := cloned_of_step hc False.elim huser hcall hfork hstep
  have hc₁ := (hstep.advanced hc False.elim hno.safeRead).inv
  have hcurrent₁ : c₁.current = c.current := by rw [Config.current, hcloned.sched, Config.current]
  refine ⟨⟨hcurrent₁, hcloned.parentUser, hcloned.parentReg⟩, fun c₃ hrun hcurrent => ?_⟩
  have hne : c₁.current ≠ d := by
    rintro rfl
    exact hc.live (allocTaskSlot_eq_some (hcurrent₁ ▸ hcloned.slot))
  have hphase := resuming_of_switched hc₁ False.elim hrun hne hcurrent
  have hc₃ := hc₁.run hrun False.elim fun c e h => h.1.safeRead
  obtain ⟨c₂, hresume, -⟩ := hc₃.exists_resume img hphase
  exact ⟨⟨c₂, hresume⟩, fun e c₂ hlast =>
    hcloned.snapshot hc hc₁ False.elim hrun hcurrent hphase hlast⟩

/-- On a kernel with two task slots, the first task clones itself and yields to its child. -/
theorem exists_clone_snapshot : ∃ c c₁ c₂ : Config 2,
    Reachable twoSlots minimalImage (SafeRead twoSlots) c ∧
      Step twoSlots minimalImage c (.trap .trapHandler 8#64 0 0) c₁ ∧
      SameUser twoSlots c.machine c₁.machine c.current ∧ Snapshot twoSlots 1 c c₂ := by
  obtain ⟨c, c₁, s, hreach, huser, -, -, -, hcall, hfork, hstep, huser₁, hsched₁⟩ := exists_cloned
  have hreach := hreach.mono fun _ _ hno => hno.safeRead (L := twoSlots)
  have hc : Inv twoSlots False c := hreach.inv False.elim fun _ _ hsafe => hsafe
  have hno : NoRead c (.trap .trapHandler 8#64 0 0) := noRead_of_call (by simp [hcall])
  have hc₁ := (hstep.advanced hc False.elim hno.safeRead).inv
  have hpick : schedPickNext c₁.machine.sched.taskStates c₁.current = some 1 := by
    rw [Config.current, hsched₁]
    decide
  have hne₁ : 1 ≠ c₁.current := by
    rw [Config.current, hsched₁]
    decide
  -- the parent yields
  obtain ⟨c₂, c₃, hcompute, -, hsched₂, hcall₂, hyield, -, hsched₃⟩ :=
    exists_yield_step minimalImage hc₁ False.elim huser₁ hpick hne₁
  have hno₂ : NoRead c₂ (.trap .trapHandler 8#64 0 0) := noRead_of_call (by simp [hcall₂])
  have hne₂ : 1 ≠ c₂.current := by
    rw [Config.current, hsched₂]
    exact hne₁
  have hrun : Run twoSlots minimalImage (fun c e => NoRead c e ∧ c.current ≠ 1) c₁ c₃ :=
    (ReflTransGen.single ⟨_, ⟨noRead_compute, hne₁.symm⟩, hcompute⟩).tail
      ⟨_, ⟨hno₂, hne₂.symm⟩, hyield⟩
  obtain ⟨⟨-, hparent, -⟩, hchild⟩ := clone_snapshot hreach huser hcall hfork hstep
  obtain ⟨⟨c₄, hresume⟩, hsnapshot⟩ := hchild c₃ hrun (congrArg Sched.currentTask hsched₃)
  exact ⟨c, c₁, c₄, hreach, hstep, hparent, hsnapshot _ _ hresume⟩

/-! ### Results -/

/-- Parent and child of a clone into slot `d` get different results: the child `0` and the parent
the number of the slot, which is not `0`. -/
structure ToldApart (L : Layout n) (i d : Fin n) (m : Mem) : Prop where
  child : tfLoad m (L.taskTrapFrame d) .a0 = 0
  parent : tfLoad m (L.taskTrapFrame i) .a0 = BitVec.ofNat 64 d
  parent_ne : tfLoad m (L.taskTrapFrame i) .a0 ≠ 0
  ne : tfLoad m (L.taskTrapFrame i) .a0 ≠ tfLoad m (L.taskTrapFrame d) .a0

/-- Slot 0 is given to a child exactly when it is not in use. -/
theorem allocTaskSlot_eq_zero_iff [NeZero n] {states : Fin n → TaskState}
    (h : allocTaskSlot states = some d) : d = 0 ↔ states 0 = .dead := by
  constructor
  · rintro rfl
    exact allocTaskSlot_eq_some h
  · intro hdead
    obtain ⟨k, rfl⟩ := Nat.exists_eq_succ_of_ne_zero (NeZero.ne n)
    rw [allocTaskSlot, List.finRange_succ, List.find?_cons_of_pos] at h
    · exact (Option.some.inj h).symm
    · simpa using hdead

/-- There are fewer slots than machine words. -/
theorem slots_lt (L : Layout n) : n < 2 ^ 64 := by
  have hstacks := L.stacks_le
  have hram := L.kernelEnd_le
  have hval : ramEnd = 0x88000000 := rfl
  omega

/-- Parent and child of a clone are told apart by its result exactly when slot 0 was in use at the
call. -/
theorem clone_told_apart_iff [NeZero n] (h : Reachable L img (SafeRead L) c)
    (huser : c.phase = .user)
    (hcall : (.trapHandler : Service n).call cause c.machine.hart = some .clone)
    (hfork : taskFork L (L.taskTrapFrame c.current) c.machine.hart.pc
      (entered L cause tval c.machine) = some (some d, s))
    (hstep : Step L img c (.trap .trapHandler cause tval ch) c₁) :
    ToldApart L c.current d c₁.machine.mem ↔ c.machine.sched.taskStates 0 ≠ .dead := by
  have hc : Inv L False c := h.inv False.elim fun _ _ hsafe => hsafe
  have hcloned := cloned_of_step hc False.elim huser hcall hfork hstep
  have hzero := allocTaskSlot_eq_zero_iff hcloned.slot
  -- the result is zero only for slot 0
  have hresult : (BitVec.ofNat 64 d : Word) = 0 ↔ d = 0 := by
    have hlt := slots_lt L
    have hd := d.isLt
    rw [← BitVec.toNat_inj, BitVec.toNat_ofNat, Nat.mod_eq_of_lt (by omega), Fin.ext_iff]
    rfl
  have hchild : tfLoad c₁.machine.mem (L.taskTrapFrame d) .a0 = 0 := by
    have hreg := hcloned.reg .a0
    rwa [if_pos rfl] at hreg
  constructor
  · intro htold hdead
    exact htold.parent_ne (hcloned.result.trans (hresult.mpr (hzero.mpr hdead)))
  · intro hused
    have hne : tfLoad c₁.machine.mem (L.taskTrapFrame c.current) .a0 ≠ 0 := by
      rw [hcloned.result, ne_eq, hresult, hzero]
      exact hused
    exact ⟨hchild, hcloned.result, hne, by rwa [hchild]⟩

/-- On a kernel with two task slots, the first clone is into slot 1. -/
theorem exists_clone_told_apart : ∃ c c₁ : Config 2,
    Reachable twoSlots minimalImage (SafeRead twoSlots) c ∧
      Step twoSlots minimalImage c (.trap .trapHandler 8#64 0 0) c₁ ∧
      ToldApart twoSlots c.current 1 c₁.machine.mem := by
  obtain ⟨c, c₁, s, hreach, huser, hsched, -, -, hcall, hfork, hstep, -⟩ := exists_cloned
  have hreach := hreach.mono fun _ _ hno => hno.safeRead (L := twoSlots)
  refine ⟨c, c₁, hreach, hstep, ?_⟩
  rw [clone_told_apart_iff hreach huser hcall hfork hstep, hsched]
  decide

/-- The first task clones itself and exits; its child runs, and clones itself into slot 0. Both
parent and child then get the result `0`. -/
theorem exists_clone_not_told_apart : ∃ (c c₁ : Config 2) (s : Machine 2),
    Reachable twoSlots minimalImage NoRead c ∧ c.phase = .user ∧
      (.trapHandler : Service 2).call 8#64 c.machine.hart = some .clone ∧
      taskFork twoSlots (twoSlots.taskTrapFrame c.current) c.machine.hart.pc
        (entered twoSlots 8#64 0 c.machine) = some (some 0, s) ∧
      Step twoSlots minimalImage c (.trap .trapHandler 8#64 0 0) c₁ ∧
      tfLoad c₁.machine.mem (twoSlots.taskTrapFrame c.current) .a0 = 0 ∧
      tfLoad c₁.machine.mem (twoSlots.taskTrapFrame 0) .a0 = 0 ∧
      ¬ ToldApart twoSlots c.current 0 c₁.machine.mem := by
  obtain ⟨c, c₁, s, hreach, huser, hsched, hat, hreg, hcall, hfork, hstep, -⟩ := exists_cloned
  have hsmall := hat.small
  rw [twoSlots_card.2] at hsmall
  have hfits : True → minimalImage.Fits := fun _ => minimalImage_slots
  have hc : Inv twoSlots True c := hreach.inv hfits fun _ _ hno => hno.safeRead
  have hno : NoRead c (.trap .trapHandler 8#64 0 0) := noRead_of_call (by simp [hcall])
  have hcloned := cloned_of_step hc hfits huser hcall hfork hstep
  have hadv₁ := hstep.advanced hc hfits hno.safeRead
  have hc₁ := hadv₁.inv
  have hsmall₁ := hcloned.small hadv₁ hc.live hsmall
  -- the parent exits
  obtain ⟨c₂, hcompute, huser₂, hmachine, hcall₂⟩ :=
    exists_call twoSlots minimalImage hcloned.phase 93#64 (by decide : _ = some .exit)
  have hc₂ := (hcompute.advanced hc₁ hfits noRead_compute.safeRead).inv
  have hsmall₂ : Small twoSlots 48 c₂.machine := by
    rw [hmachine]
    exact ⟨hsmall₁.root, hsmall₁.task⟩
  have hsched₂ : c₂.machine.sched
      = ⟨0, Function.update (Function.update (fun _ => .dead) 0 .running) 1 .ready⟩ := by
    rw [hmachine]
    change c₁.machine.sched = _
    rw [hcloned.sched, hsched]
  have ht := entered_spec (hc₂.user huser₂).2 8#64 0
  have hserve : serve twoSlots minimalImage .trapHandler 0 (entered twoSlots 8#64 0 c₂.machine)
      = taskExit twoSlots (entered twoSlots 8#64 0 c₂.machine) := serve_call ht hcall₂
  have hsched₂' := ht.sched.trans hsched₂
  obtain ⟨s₂, hexit, hs₂⟩ : ∃ s₂, taskExit twoSlots (entered twoSlots 8#64 0 c₂.machine)
      = some (.switching 0 none s₂) ∧ s₂.sched = schedPrepareSwitch 1 ⟨0, Function.update
        (Function.update (Function.update (fun _ => .dead) 0 .running) 1 .ready) 0 .dead⟩ := by
    generalize entered twoSlots 8#64 0 c₂.machine = t at hsched₂'
    have hpick : schedPickNext (Function.update t.sched.taskStates t.sched.currentTask .dead)
        t.sched.currentTask = some 1 := by
      rw [hsched₂']
      decide
    obtain ⟨s₂, hexit, hs₂⟩ := taskExit_of_pick (L := twoSlots) hpick (by rw [hsched₂']; decide)
    rw [hsched₂'] at hexit hs₂
    exact ⟨s₂, hexit, hs₂⟩
  obtain ⟨c₃, hswitch, hphase₃, hsched₃⟩ := exists_switched huser₂ (hserve.trans hexit)
  rw [hs₂] at hsched₃
  have hno₂ : NoRead c₂ (.trap .trapHandler 8#64 0 0) := noRead_of_call (by simp [hcall₂])
  have hadv₃ := hswitch.advanced hc₂ hfits hno₂.safeRead
  have hc₃ := hadv₃.inv
  have hcurrent₃ : c₃.current = 1 := by
    rw [Config.current, hsched₃]
    rfl
  have hsmall₃ : Small twoSlots 48 c₃.machine := by
    refine hsmall₂.of_onBehalf hadv₃.onBehalf fun id hid hcases => absurd hid ?_
    -- slot 0 is the only one that was current, and none came into use
    rw [Config.current, Machine.Live, hsched₂] at hcases
    rw [Machine.Live, hsched₃]
    clear hid
    revert id
    decide
  -- the child goes on
  obtain ⟨c₄, hresume, hsched₄⟩ := hc₃.exists_resume minimalImage hphase₃
  have hadv₄ := hresume.advanced hc₃ hfits noRead_resume.safeRead
  have hne₁ : c₁.current ≠ 1 := by
    rw [Config.current, hcloned.sched, hsched]
    decide
  have hne₂ : c₂.current ≠ 1 := by
    rw [Config.current, hsched₂]
    decide
  have hrun : Run twoSlots minimalImage (fun c e => NoRead c e ∧ c.current ≠ 1) c₁ c₃ :=
    (ReflTransGen.single ⟨_, ⟨noRead_compute, hne₁⟩, hcompute⟩).tail ⟨_, ⟨hno₂, hne₂⟩, hswitch⟩
  have hsnapshot := hcloned.snapshot hc hc₁ hfits hrun hcurrent₃ hphase₃ hresume
  have hreach₄ : Reachable twoSlots minimalImage NoRead c₄ :=
    (((hreach.step hno hstep).step noRead_compute hcompute).step hno₂ hswitch).step
      noRead_resume hresume
  have hsmall₄ : Small twoSlots 48 c₄.machine := by
    refine hsmall₃.of_onBehalf hadv₄.onBehalf fun id hid hcases => ?_
    rw [Machine.Live, hsched₄] at hid
    rw [hcases.resolve_right (not_not.mpr hid), hcurrent₃, ← hsnapshot.current,
      ← hadv₄.inv.pgd_eq, hsnapshot.card, hc.pgd_eq]
    exact hsmall.task _ hc.live
  have hcall₄ : (.trapHandler : Service 2).call 8#64 c₄.machine.hart = some .clone := by
    rw [Service.call, hsnapshot.reg .a7 (by decide), hreg]
    decide
  have hslot : allocTaskSlot c₄.machine.sched.taskStates = some 0 := by
    rw [hsched₄, hsched₃]
    decide
  have hroom : 133 + (Fintype.card (Holder 2) + 1) * 48 ≤ twoSlots.managed.card := by
    rw [twoSlots_card.1]
    decide
  obtain ⟨s₄, c₅, hfork₄, hclone, -⟩ :=
    exists_clone_step hadv₄.inv hsnapshot.phase minimalImage 8#64 0 0 hcall₄ hslot hsmall₄ hroom
  have hcloned₄ := cloned_of_step hadv₄.inv hfits hsnapshot.phase hcall₄ hfork₄ hclone
  have hchild := hcloned₄.reg .a0
  rw [if_pos rfl] at hchild
  exact ⟨c₄, c₅, s₄, hreach₄, hsnapshot.phase, hcall₄, hfork₄, hclone, hcloned₄.result, hchild,
    fun htold => htold.parent_ne hcloned₄.result⟩

/-! ### Failure -/

/-- From `c` to `c'` nothing has changed but the kernel stack of the current task, where its
trapframe has the registers it trapped with and the result `-1`. -/
structure CloneFailed (L : Layout n) (c c' : Config n) : Prop where
  freeList : c'.machine.phys.freeList = c.machine.phys.freeList
  root : c'.machine.rootPageTable = c.machine.rootPageTable
  sched : c'.machine.sched = c.machine.sched
  userStacks : c'.machine.taskUserStacks = c.machine.taskUserStacks
  contexts : ∀ id, ∀ a ∈ L.contextRange id, c'.machine.mem a = c.machine.mem a
  managed : ∀ a, L.kernelEnd ≤ a → c'.machine.mem a = c.machine.mem a
  tables : ∀ id, c.machine.Live id → SameUser L c.machine c'.machine id
  saved : ∀ x, x ≠ .a0 → tfLoad c'.machine.mem (L.taskTrapFrame c.current) (regField x)
    = c.machine.hart.reg x
  result : tfLoad c'.machine.mem (L.taskTrapFrame c.current) .a0 = -1

/-- A clone that returns `-1` has found no slot, and changes nothing but the result. -/
theorem failed_clone [NeZero n] (h : Reachable L img (SafeRead L) c) (huser : c.phase = .user)
    (hcall : (.trapHandler : Service n).call cause c.machine.hart = some .clone)
    (hfork : taskFork L (L.taskTrapFrame c.current) c.machine.hart.pc
      (entered L cause tval c.machine) = some (none, s)) :
    allocTaskSlot c.machine.sched.taskStates = none ∧ s = entered L cause tval c.machine ∧
      ∀ ch c₁, Step L img c (.trap .trapHandler cause tval ch) c₁ → CloneFailed L c c₁ := by
  have hc : Inv L False c := h.inv False.elim fun _ _ hsafe => hsafe
  have ht := entered_spec (hc.user huser).2 cause tval
  obtain ⟨hall, hs⟩ : (∀ id, (entered L cause tval c.machine).Live id) ∧
      s = entered L cause tval c.machine := by
    rcases (taskFork_spec (ht.entered hc.entered) c.machine.hart.pc).post_of_eq_some hfork with
      ⟨heq, hall⟩ | ⟨d, hd, -⟩
    · exact ⟨hall, (Prod.mk.inj heq).2⟩
    · cases hd
  refine ⟨?_, hs, fun ch c₁ hstep => ?_⟩
  · rw [allocTaskSlot, List.find?_eq_none]
    intro id _
    have hlive : c.machine.sched.taskStates id ≠ .dead := (ht.live_iff id).mp (hall id)
    simpa using hlive
  have hsafe : SafeRead L c (.trap .trapHandler cause tval ch) :=
    (noRead_of_call (by simp [hcall])).safeRead
  have hnot : ¬ (.trapHandler : Service n).Ends img cause c.machine.hart := by
    simp [Service.Ends, hcall]
  obtain ⟨r, hserve, hcont, hleft⟩ := hstep.trap_left hc False.elim hsafe hnot
  rw [serve_call ht hcall, Syscall.handler, doSysClone, hfork] at hserve
  obtain rfl := Option.some.inj hserve
  rw [← hs] at ht hcont
  have hsched : c₁.machine.sched = c.machine.sched := hleft.sched.trans ht.sched
  rcases hleft.goes with ⟨-, -, -, hstack⟩ | ⟨-, hcur, -⟩
  swap
  · rw [Config.current, hsched] at hcur
    exact absurd rfl hcur
  -- the trap, the result and the way back write to the kernel stack only
  have hchanged : ChangedIn (L.stackRange c.current) c.machine.mem c₁.machine.mem :=
    (ht.changed.trans (changedIn_frame L c.current _ .a0 _)).trans hstack
  have hcontexts : ∀ id, ∀ a ∈ L.contextRange id, c₁.machine.mem a = c.machine.mem a :=
    fun id a ha => hchanged a (Layout.contextRange_not_stack ha)
  refine ⟨hleft.freeList.trans ht.freeList, hleft.root.trans ht.root, hsched,
    hleft.userStacks.trans ht.userStacks, hcontexts, fun a ha => hchanged a fun hmem => ?_,
    fun id hid => ?_, fun x hx => ?_, ?_⟩
  · exact absurd (Layout.mem_stackRange_bounds hmem).2 (by omega)
  · exact SameUser.of_kernelWrite hc.memOk hid hchanged (fun _ => Layout.mem_stackRange_bounds)
      (contextLoad_congr (hcontexts id) .satp)
  · have hfield : regField x ≠ .a0 := by
      revert hx
      cases x <;> decide
    rw [hleft.frame _ (regField_ne_epc x), hcont.kept.frame _ hfield, ht.frame]
  · rw [hleft.frame .a0 (by decide)]
    exact (tfLoad_tfStore ..).trans (if_pos rfl)

/-- On a kernel with two task slots, the second clone of the first task fails. -/
theorem exists_failed_clone : ∃ c c₁ : Config 2,
    Reachable twoSlots minimalImage (SafeRead twoSlots) c ∧
      Step twoSlots minimalImage c (.trap .trapHandler 8#64 0 0) c₁ ∧
      CloneFailed twoSlots c c₁ := by
  obtain ⟨c₀, c, s, hreach₀, huser₀, hsched₀, -, -, hcall₀, hfork₀, hclone, -⟩ := exists_cloned
  have hno : NoRead c₀ (.trap .trapHandler 8#64 0 0) := noRead_of_call (by simp [hcall₀])
  have hreach := (hreach₀.step hno hclone).mono fun _ _ hno => hno.safeRead (L := twoSlots)
  have hc₀ : Inv twoSlots False c₀ := hreach₀.inv False.elim fun _ _ hno => hno.safeRead
  have hc : Inv twoSlots False c := hreach.inv False.elim fun _ _ hsafe => hsafe
  have hcloned := cloned_of_step hc₀ False.elim huser₀ hcall₀ hfork₀ hclone
  obtain ⟨c₁, hcompute, huser₁, hmachine, hcall⟩ :=
    exists_call twoSlots minimalImage hcloned.phase 220#64 (by decide : _ = some .clone)
  have hreach₁ := hreach.step noRead_compute.safeRead hcompute
  have hc₁ := (hcompute.advanced hc False.elim noRead_compute.safeRead).inv
  have ht := entered_spec (hc₁.user huser₁).2 8#64 0
  have hslot : allocTaskSlot (entered twoSlots 8#64 0 c₁.machine).sched.taskStates = none := by
    rw [ht.sched, hmachine]
    change allocTaskSlot c.machine.sched.taskStates = none
    rw [hcloned.sched, hsched₀]
    decide
  have hfork : taskFork twoSlots (twoSlots.taskTrapFrame c₁.current) c₁.machine.hart.pc
      (entered twoSlots 8#64 0 c₁.machine) = some (none, entered twoSlots 8#64 0 c₁.machine) := by
    rw [taskFork, hslot]
  obtain ⟨v, s', hserve⟩ : ∃ v s', serve twoSlots minimalImage .trapHandler 0
      (entered twoSlots 8#64 0 c₁.machine) = some (.returned v s') := by
    rw [serve_call ht hcall, Syscall.handler, doSysClone, hfork, Option.bind_some]
    exact ⟨_, _, rfl⟩
  obtain ⟨c₂, hstep, -⟩ := exists_returned huser₁ hserve
  obtain ⟨-, -, hfailed⟩ := failed_clone hreach₁ huser₁ hcall hfork
  exact ⟨c₁, c₂, hreach₁, hstep, hfailed 0 c₂ hstep⟩

end RiscvKernel
