import RiscvKernel.System.Continue

/-!
# Registers across traps

A task that traps gets its registers back, whatever other tasks do in the meantime
(`registers_survive`): an interrupt changes nothing, and a system call that does not end the
program moves the program counter behind the call and may leave a result in `a0`. In user mode
`mscratch` is always ready for the next trap (`TrapReady`).
-/

namespace RiscvKernel

open ByteMemory RadixTable Riscv Relation

variable {n : ℕ}

/-- A trap in `c` saves the registers of the current task in its trapframe. -/
structure TrapReady (L : Layout n) (c : Config n) : Prop where
  mscratch : (c.machine.hart.csr .mscratch).toNat = L.kernelStackEnd c.current
  saved : ∀ cause tval x,
    tfLoad (entered L cause tval c.machine).mem (L.taskTrapFrame c.current) (regField x)
      = c.machine.hart.reg x
  frame : ∀ cause tval,
    ((entered L cause tval c.machine).hart.reg .a6).toNat = L.taskTrapFrame c.current

/-- The task that trapped in `c`, where the handler came to `r`, is back in user mode in `c'`. -/
structure Survived (L : Layout n) (service : Service n) (cause : Word) (c : Config n)
    (r : Handled n) (c' : Config n) : Prop where
  priv : c'.machine.hart.priv = .user
  /-- After an interrupt, nothing has changed. -/
  interrupt : service = .trapHandler → isInterrupt cause = true →
    c'.machine.hart.pc = c.machine.hart.pc ∧ c'.machine.hart.reg = c.machine.hart.reg
  pc : c'.machine.hart.pc = service.resumePc cause c.machine.hart.pc
  reg : ∀ x, x ≠ .a0 → c'.machine.hart.reg x = c.machine.hart.reg x
  /-- The result is what the handler has stored in `tf->a0`. -/
  a0 : c'.machine.hart.reg .a0 = tfLoad r.machine.mem (L.taskTrapFrame c.current) .a0
  a0_kept : service.call cause c.machine.hart ≠ some .read →
    service.call cause c.machine.hart ≠ some .clone →
    c'.machine.hart.reg .a0 = c.machine.hart.reg .a0

variable {L : Layout n} {img : AppImage} {fits : Prop} {W : Set ℕ} {c c₁ c₂ : Config n}
  {r : Handled n} {cause tval : Word} {ch : Byte} {service : Service n}

theorem Inv.trapReady (hc : Inv L fits c) (huser : c.phase = .user) : TrapReady L c := by
  have ht := fun cause tval => entered_spec (hc.user huser).2 cause tval
  exact ⟨(hc.user huser).2, fun cause tval x => (ht cause tval).frame x,
    fun cause tval => (ht cause tval).tf_arg⟩

/-- Registers restored from the trapframe that the handler has left. -/
theorem Survived.of_restored (hc : Inv L fits c) (huser : c.phase = .user)
    (hcont : Continued L c.current (service.call cause c.machine.hart) W
      (service.resumePc cause c.machine.hart.pc) (entered L cause tval c.machine) r)
    (hres : Restored L r.machine.mem c.current (service.resumePc cause c.machine.hart.pc)
      c₂.machine.hart) : Survived L service cause c r c₂ := by
  obtain ⟨hpriv, hpc, hreg⟩ := hres
  have hsaved := (hc.trapReady huser).saved cause tval
  have hother : ∀ x, x ≠ .a0 → c₂.machine.hart.reg x = c.machine.hart.reg x := by
    intro x hx
    have hfield : regField x ≠ .a0 := by
      revert hx
      cases x <;> decide
    rw [hreg, hcont.kept.frame _ hfield, hsaved]
  have ha0 : service.call cause c.machine.hart ≠ some .read →
      service.call cause c.machine.hart ≠ some .clone →
      c₂.machine.hart.reg .a0 = c.machine.hart.reg .a0 := by
    intro hread hclone
    have hframe := hcont.a0 hread hclone
    exact ((hreg .a0).trans hframe).trans (hsaved .a0)
  refine ⟨hpriv, fun hservice hint => ?_, hpc, hother, hreg .a0, ha0⟩
  -- an interrupt is no system call
  have hnone : service.call cause c.machine.hart = none := by
    rw [hservice, Service.call, syscallOf, if_pos hint]
  refine ⟨?_, ?_⟩
  · rw [hpc, hservice, Service.resumePc, if_pos hint]
  · ext1 x
    by_cases hx : x = .a0
    · rw [hx]
      exact ha0 (by simp [hnone]) (by simp [hnone])
    · exact hother x hx

/-- Once a task that waits behind `switch_to` is back in user mode, it has the registers of its
trapframe: nobody has touched that in the meantime. -/
theorem Handled.Left.restored {pc : Word} (hleft : Handled.Left L c.current pc r c₁)
    (hc₁ : Inv L fits c₁) (hlive : c₁.machine.Live c.current) (hfits : fits → img.Fits)
    (hrun : Run L img (fun c' e => SafeRead L c' e ∧ ¬ (c'.phase = .user ∧ c'.current = c.current))
      c₁ c₂) (hphase : c₂.phase = .user) (hcurrent : c₂.current = c.current) :
    Restored L r.machine.mem c.current pc c₂.machine.hart := by
  rcases hleft.goes with ⟨huser, hcur, hres, -⟩ | ⟨-, hne, hra, k, hk, hafter⟩
  · -- it never left user mode, so the run ends where it starts
    rcases hrun.cases_head with rfl | ⟨c₃, ⟨e, ⟨-, hnot⟩, -⟩, -⟩
    · exact hres
    · exact absurd ⟨huser, hcur⟩ hnot
  obtain ⟨c₃, e, hfirst, hcur₃, hres₃, hlast⟩ :=
    hc₁.run_split hfits (fun _ _ h => h) hrun hne hphase hcurrent
  have hinv₃ := hc₁.run hfirst hfits fun _ _ h => h.1
  have halone := hc₁.run_spared (W := outsideImage L) hfirst hfits
    (fun c e h => ⟨h.1, SafeRead.outsideImage h.1, h.2⟩) hlive
  have hid : ∀ a ∈ outsideImage L, a ∈ outsideImage L := fun _ h => h
  obtain ⟨-, -, ⟨hfresh, -⟩ | ⟨k', v, hk', -, hv, hrestored⟩⟩ := hinv₃.resumed hres₃ hlast
  · -- its context does not lead to `trap_return`
    have hcontext : ∀ a ∈ L.contextRange c.current, c₃.machine.mem a = c₁.machine.mem a :=
      fun a ha => halone.spared.kernelPart_eq hid a (Or.inl ha)
    have hkept := contextLoad_congr hcontext .ra
    rw [hcur₃] at hfresh
    exact absurd (hra.symm.trans (hkept.symm.trans hfresh.ra)) L.returns_ne
  · rw [hcur₃] at hk' hrestored
    obtain rfl : k = k' := Option.some.inj (hk.symm.trans (halone.suspended.symm.trans hk'))
    obtain rfl : pc = v := Option.some.inj (hafter.symm.trans hv)
    obtain ⟨hpriv, hpc, hreg⟩ := hrestored
    refine ⟨hpriv, hpc, fun x => ?_⟩
    rw [hreg, halone.frame_eq hid, hleft.frame _ (regField_ne_epc x)]

/-- In user mode `mscratch` points to the end of the kernel stack of the current task, and a task
that traps without ending its program has its registers back when it runs again. -/
theorem registers_survive [NeZero n] (h : Reachable L img (SafeRead L) c)
    (huser : c.phase = .user) :
    TrapReady L c ∧ ∀ service cause tval ch c₁ c₂,
      SafeRead L c (.trap service cause tval ch) → ¬ service.Ends img cause c.machine.hart →
      Step L img c (.trap service cause tval ch) c₁ →
      Run L img (fun c' e => SafeRead L c' e ∧ ¬ (c'.phase = .user ∧ c'.current = c.current))
        c₁ c₂ → c₂.phase = .user → c₂.current = c.current →
      ∃ r, serve L img service ch (entered L cause tval c.machine) = some r ∧
        Survived L service cause c r c₂ := by
  have hc : Inv L False c := h.inv False.elim fun _ _ hsafe => hsafe
  refine ⟨hc.trapReady huser, fun service cause tval ch c₁ c₂ hsafe hnot hstep hrun hphase
    hcurrent => ?_⟩
  obtain ⟨r, hserve, hcont, hleft⟩ := hstep.trap_left hc False.elim hsafe hnot
  have hc₁ := (hstep.advanced hc False.elim hsafe).inv
  have hlive : c₁.machine.Live c.current := by
    rw [Machine.Live, hleft.sched]
    exact hcont.live
  exact ⟨r, hserve, Survived.of_restored hc huser hcont
    (hleft.restored hc₁ hlive False.elim hrun hphase hcurrent)⟩

/-- The first task yields to the clone that it has made, which runs and yields in turn. -/
theorem exists_registers_survive : ∃ (c c₁ c₂ c₃ : Config 2) (r : Handled 2),
    Reachable twoSlots minimalImage (SafeRead twoSlots) c ∧ TrapReady twoSlots c ∧
      Step twoSlots minimalImage c (.trap .trapHandler 8#64 0 0) c₁ ∧
      Step twoSlots minimalImage c₁ .resume c₂ ∧ c₂.phase = .user ∧ c₂.current ≠ c.current ∧
      Run twoSlots minimalImage (fun c' e => SafeRead twoSlots c' e ∧
        ¬ (c'.phase = .user ∧ c'.current = c.current)) c₂ c₃ ∧
      Survived twoSlots .trapHandler 8#64 c r c₃ := by
  obtain ⟨c₀, -, hreach₀, huser₀, hsched₀, -⟩ := exists_twoLive
  have hreach₀ := hreach₀.mono fun _ _ hno => hno.safeRead (L := twoSlots)
  have hc₀ : Inv twoSlots False c₀ := hreach₀.inv False.elim fun _ _ hsafe => hsafe
  have hcurrent₀ : c₀.current = 0 := congrArg Sched.currentTask hsched₀
  -- the first task yields
  have hpick₀ : schedPickNext c₀.machine.sched.taskStates c₀.current = some 1 := by
    rw [hcurrent₀, hsched₀]
    decide
  obtain ⟨c, c₁, hcompute, huser, hsched, hcall, hyield, hphase₁, hsched₁⟩ :=
    exists_yield_step minimalImage hc₀ False.elim huser₀ hpick₀ (by rw [hcurrent₀]; decide)
  have hreach := hreach₀.step noRead_compute.safeRead hcompute
  have hc : Inv twoSlots False c := hreach.inv False.elim fun _ _ hsafe => hsafe
  have hsafe : SafeRead twoSlots c (.trap .trapHandler 8#64 0 0) :=
    (noRead_of_call (by simp [hcall])).safeRead
  have hc₁ := (hyield.advanced hc False.elim hsafe).inv
  -- the clone runs
  obtain ⟨c₂, hresume, hsched₂⟩ := hc₁.exists_resume minimalImage hphase₁
  have hc₂ := (hresume.advanced hc₁ False.elim noRead_resume.safeRead).inv
  obtain ⟨huser₂, -⟩ := hc₁.resumed hphase₁ hresume
  rw [hsched₁, hsched₀] at hsched₂
  have hcurrent₂ : c₂.current = 1 := congrArg Sched.currentTask hsched₂
  -- the clone yields
  have hpick₂ : schedPickNext c₂.machine.sched.taskStates c₂.current = some 0 := by
    rw [hcurrent₂, hsched₂]
    decide
  obtain ⟨c₃, c₄, hcompute₃, huser₃, hsched₃, hcall₃, hyield₃, hphase₄, hsched₄⟩ :=
    exists_yield_step minimalImage hc₂ False.elim huser₂ hpick₂ (by rw [hcurrent₂]; decide)
  have hc₃ := (hcompute₃.advanced hc₂ False.elim noRead_compute.safeRead).inv
  have hsafe₃ : SafeRead twoSlots c₃ (.trap .trapHandler 8#64 0 0) :=
    (noRead_of_call (by simp [hcall₃])).safeRead
  have hc₄ := (hyield₃.advanced hc₃ False.elim hsafe₃).inv
  -- the first task goes on
  obtain ⟨c₅, hresume₅, hsched₅⟩ := hc₄.exists_resume minimalImage hphase₄
  obtain ⟨huser₅, -⟩ := hc₄.resumed hphase₄ hresume₅
  have hcurrent : c.current = 0 := congrArg Sched.currentTask (hsched.trans hsched₀)
  have hcurrent₃ : c₃.current = 1 := congrArg Sched.currentTask (hsched₃.trans hsched₂)
  have hcurrent₅ : c₅.current = c.current := by
    rw [hcurrent, Config.current, hsched₅, hsched₄]
    rfl
  have hother₁ : ¬ (c₁.phase = .user ∧ c₁.current = c.current) := by simp [hphase₁]
  have hother₂ : ¬ (c₂.phase = .user ∧ c₂.current = c.current) := by simp [hcurrent₂, hcurrent]
  have hother₃ : ¬ (c₃.phase = .user ∧ c₃.current = c.current) := by simp [hcurrent₃, hcurrent]
  have hother₄ : ¬ (c₄.phase = .user ∧ c₄.current = c.current) := by simp [hphase₄]
  have hrun : Run twoSlots minimalImage (fun c' e => SafeRead twoSlots c' e ∧
      ¬ (c'.phase = .user ∧ c'.current = c.current)) c₂ c₅ :=
    ((ReflTransGen.single ⟨_, ⟨noRead_compute.safeRead, hother₂⟩, hcompute₃⟩).tail
      ⟨_, ⟨hsafe₃, hother₃⟩, hyield₃⟩).tail ⟨_, ⟨noRead_resume.safeRead, hother₄⟩, hresume₅⟩
  have hnot : ¬ (.trapHandler : Service 2).Ends minimalImage 8#64 c.machine.hart := by
    simp [Service.Ends, hcall]
  obtain ⟨hready, hsurvive⟩ := registers_survive hreach huser
  obtain ⟨r, -, hr⟩ := hsurvive _ _ _ _ c₁ c₅ hsafe hnot hyield
    (hrun.head ⟨_, ⟨noRead_resume.safeRead, hother₁⟩, hresume⟩) huser₅ hcurrent₅
  exact ⟨c, c₁, c₂, c₅, r, hreach, hready, hyield, hresume, huser₂,
    fun heq => hother₂ ⟨huser₂, heq⟩, hrun, hr⟩

end RiscvKernel
