import RiscvKernel.System.Serve

/-!
# The invariant of the running system

At every return to user mode, and whenever `switch_to` has just been left, the page tables are in
order, exactly the current task is running with its own page table, and every other task waits at
a place where it can go on (`Inv`).

* `Step.advanced`: a step keeps the invariant and is taken on behalf of the current task.
* `Inv.run`: so does a run.
-/

namespace RiscvKernel

open ByteMemory RadixTable Riscv

variable {n : ℕ} (L : Layout n)

/-! ### Waiting tasks -/

/-- The call of `switch_to` described by `k` can still return: the context and the part of the
kernel stack in use are as it left them. -/
structure Left (m : Mem) (k : Suspended) (id : Fin n) : Prop where
  context : ∀ p ∈ keptRegs, contextLoad m (L.context id) p.2 = k.reg p.1
  ra : k.reg .ra = L.switchReturn
  frame : k.frame = L.taskTrapFrame id
  sp : L.kernelStack id ≤ (k.reg .sp).toNat
  stack : ∀ a, (k.reg .sp).toNat ≤ a → a < k.frame → m a = k.mem a
  after : k.after ≠ none

/-- A task that can go on when it is switched to: at `trap_return`, or behind the call of
`switch_to`. -/
def Waiting (m : Mem) (k : Option Suspended) (id : Fin n) : Prop :=
  Fresh L m id ∨ ∃ k', k = some k' ∧ Left L m k' id

/-- The invariant. -/
structure Inv (fits : Prop) (c : Config n) : Prop where
  memOk : MemOk L fits c.machine
  sched : c.machine.sched.Ok
  satp : c.machine.hart.csr .satp = contextLoad c.machine.mem (L.context c.current) .satp
  user : c.phase = .user → c.machine.hart.priv = .user ∧
    (c.machine.hart.csr .mscratch).toNat = L.kernelStackEnd c.current
  resuming : c.phase = .resuming → ∀ p ∈ keptRegs,
    c.machine.hart.reg p.1 = contextLoad c.machine.mem (L.context c.current) p.2
  waiting : ∀ id, c.machine.Live id → id ≠ c.current ∨ c.phase = .resuming →
    Waiting L c.machine.mem (c.suspended id) id

/-! ### Input -/

/-- The addresses where a step stores input. -/
def Config.stores (c : Config n) : Event n → Set ℕ
  | .trap service cause _ _ => service.stores cause c.machine.hart
  | _ => ∅

/-- The step is no read system call that stores a byte. -/
def NoRead (c : Config n) (e : Event n) : Prop := c.stores e = ∅

/-- The step is no read system call that stores a byte in the memory of the kernel. -/
def SafeRead (c : Config n) (e : Event n) : Prop := ∀ a ∈ c.stores e, a ∉ kernelBytes L c.machine

/-- From `c` to `c'` the system has gone on behalf of the task that was current in `c`. -/
structure Advanced (fits : Prop) (W : Set ℕ) (c c' : Config n) : Prop where
  inv : Inv L fits c'
  onBehalf : OnBehalf L fits W c.current c.machine c'.machine
  suspended : ∀ j, j ≠ c.current → c.machine.Live j → c'.suspended j = c.suspended j

variable {L} {fits : Prop} {W : Set ℕ} {c c' : Config n} {img : AppImage} {e : Event n}
  {s : Machine n} {m m' : Mem} {id : Fin n} {k : Option Suspended} {h : Hart} {r : Hart × Mem}

theorem NoRead.safeRead (h : NoRead c e) : SafeRead L c e := by
  intro a ha
  rw [NoRead] at h
  rw [h] at ha
  exact absurd ha (Set.notMem_empty a)

theorem Waiting.congr (h : Waiting L m k id) (hm : ∀ a ∈ kernelPart L id, m' a = m a) :
    Waiting L m' k id := by
  rcases h with h | ⟨k', hk, h⟩
  · exact Or.inl (h.congr fun a ha => hm a (Or.inl ha))
  · refine Or.inr ⟨k', hk, { h with context := fun p hp => ?_, stack := fun a ha ha' => ?_ }⟩
    · rw [contextLoad_congr fun a ha => hm a (Or.inl ha), h.context p hp]
    · have hend := L.kernelStackEnd_eq id
      have hsp := h.sp
      have hframe := h.frame
      rw [hm a (Or.inr ?_), h.stack a ha ha']
      rw [Layout.stackRange, Set.mem_Ico]
      omega

/-- Memory of the kernel that input is not stored to. -/
theorem bytes_kernelPart {s' : Machine n} (h : Spared L W s s' id)
    (hW : ∀ a ∈ W, a ∉ kernelBytes L s) : ∀ a ∈ kernelPart L id, s'.mem a = s.mem a := by
  intro a ha
  refine h.bytes a (Or.inl ha) fun hmem => hW a hmem (Or.inl ?_)
  obtain ⟨hge, hlt⟩ := mem_kernelPart_bounds ha
  exact ⟨(L.text_le.trans L.rodata_le).trans hge, hlt⟩

namespace Inv

theorem entered (hc : Inv L fits c) : Entered L fits c.current c.machine :=
  ⟨hc.memOk, hc.sched, rfl, hc.satp⟩

theorem live (hc : Inv L fits c) : c.machine.Live c.current := hc.entered.live

/-- The page table the hardware uses is the one of the current task. -/
theorem pgd_eq (hc : Inv L fits c) :
    c.machine.pgd = taskPageTable L c.machine.mem c.current := by
  rw [Machine.pgd, taskPageTable, hc.satp]

/-- The other tasks wait after an action on behalf of the current one. -/
theorem waiting_of_onBehalf (hc : Inv L fits c) (hb : OnBehalf L fits W c.current c.machine s)
    (hW : ∀ a ∈ W, a ∉ kernelBytes L c.machine)
    (hfresh : ∀ id, ¬ c.machine.Live id → s.Live id → Fresh L s.mem id) (hid : id ≠ c.current)
    (hlive : s.Live id) : Waiting L s.mem (c.suspended id) id := by
  by_cases hlive' : c.machine.Live id
  · exact (hc.waiting id hlive' (Or.inl hid)).congr (bytes_kernelPart (hb.spared id hid hlive') hW)
  · exact Or.inl (hfresh id hlive' hlive)

end Inv

/-! ### Assembly code around a handler -/

/-- The exit path after `trap_handler` has returned. -/
theorem leave_spec {tf : ℕ} (hsp : (h.reg .sp).toNat = tf) (hlt : tf + sizeofTrapframe < 2 ^ 64) :
    (leave h m).2 = tfStore m tf .epc (h.reg .a0) ∧
      Returned h (tfStore m tf .epc (h.reg .a0)) tf (leave h m).1 := by
  have hexit : run trapExit (h, m)
      = (h.setCsr .mepc (h.reg .a0), tfStore m tf .epc (h.reg .a0)) := by
    simp only [trapExit, run_cons, run_nil, exec]
    rw [addr_tfOff hsp hlt, tfStore]
  have hsp' : ((h.setCsr .mepc (h.reg .a0)).reg .sp).toNat = tf := hsp
  obtain ⟨hreturned, hm⟩ := trapReturn_spec (m := tfStore m tf .epc (h.reg .a0)) hsp' hlt
  rw [leave, hexit]
  refine ⟨hm, { hreturned with satp := ?_ }⟩
  rw [hreturned.satp]
  rfl

theorem callStack_subset {a : ℕ} (ha : a ∈ callStack (L.taskTrapFrame id)) :
    a ∈ L.stackRange id := by
  rw [callStack, Set.mem_Ico] at ha
  rw [Layout.stackRange, Set.mem_Ico, L.kernelStackEnd_eq]
  rw [Layout.taskTrapFrame] at ha ⊢
  omega

theorem frame_lt (L : Layout n) (id : Fin n) : L.taskTrapFrame id + sizeofTrapframe < 2 ^ 64 :=
  (L.taskTrapFrame_le id).2.trans_lt (by decide)

/-- Control returns to the user program of the current task. -/
theorem Advanced.of_returned {tf : ℕ} (hc : Inv L fits c)
    (hb : OnBehalf L fits W c.current c.machine s) (hW : ∀ a ∈ W, a ∉ kernelBytes L c.machine)
    (hok : s.sched.Ok) (hcurrent : s.sched.currentTask = c.current)
    (hfresh : ∀ id, ¬ c.machine.Live id → s.Live id → Fresh L s.mem id)
    (hchanged : ChangedIn (L.stackRange c.current) s.mem r.2)
    (hsatp : h.csr .satp = contextLoad s.mem (L.context c.current) .satp)
    (hreturned : Returned h m tf r.1) (htf : tf = L.taskTrapFrame c.current)
    (hmachine : c'.machine = s.after r) (hphase : c'.phase = .user)
    (hsuspended : c'.suspended = c.suspended) : Advanced L fits W c c' := by
  have hcur : c'.current = c.current := by rw [Config.current, hmachine, ← hcurrent]; rfl
  -- the exit uses the kernel stack only, which holds no context
  have hcontext : ∀ id, ∀ a ∈ L.contextRange id, r.2 a = s.mem a :=
    fun id a ha => hchanged a (Layout.contextRange_not_stack ha)
  have hlast : OnBehalf L fits W c.current s (s.after r) :=
    OnBehalf.of_kernelWrite hb.memOk hchanged (fun a ha => Or.inr ha)
      (fun _ => contextLoad_congr (hcontext _) .satp) rfl rfl (fun _ => Iff.rfl) fun _ _ => rfl
  have hall := hb.trans hlast
  refine ⟨⟨?_, ?_, ?_, fun _ => ?_, fun hres => ?_, fun id hid hother => ?_⟩, ?_, fun j _ _ => ?_⟩
  · rw [hmachine]
    exact hlast.memOk
  · rw [hmachine]
    exact hok
  · rw [hcur, hmachine]
    change r.1.csr .satp = contextLoad r.2 _ _
    rw [hreturned.satp, hsatp, contextLoad_congr (hcontext _)]
  · rw [hcur, hmachine]
    refine ⟨hreturned.priv, ?_⟩
    change (r.1.csr .mscratch).toNat = _
    rw [hreturned.mscratch, htf, L.kernelStackEnd_eq]
  · rw [hphase] at hres
    cases hres
  · rw [hcur, hphase] at hother
    rw [hmachine] at hid
    rw [hmachine, hsuspended]
    -- in user mode the task that runs does not wait
    have hne : id ≠ c.current := hother.resolve_right (by simp)
    exact hc.waiting_of_onBehalf hall hW
      (fun j hj hj' => (hfresh j hj hj').congr (hcontext j)) hne hid
  · rw [hmachine]
    exact hall
  · rw [hsuspended]

theorem context_toNat (L : Layout n) (id : Fin n) :
    (BitVec.ofNat 64 (L.context id)).toNat = L.context id ∧
      L.context id + sizeofContext < 2 ^ 64 := by
  have hbounds := L.context_bounds id
  have hram := L.kernelEnd_le
  have hval : ramEnd = 0x88000000 := rfl
  rw [BitVec.toNat_ofNat]
  omega

/-- The handler has called `switch_to`. -/
theorem Advanced.of_switched {after : Option Word} {r : Hart × Mem} (hc : Inv L fits c)
    (hb : OnBehalf L fits W c.current c.machine s) (hW : ∀ a ∈ W, a ∉ kernelBytes L c.machine)
    (hok : s.sched.Ok)
    (hfresh : ∀ id, ¬ c.machine.Live id → s.Live id → Fresh L s.mem id)
    (hsatp : s.Live c.current →
      s.hart.csr .satp = contextLoad s.mem (L.context c.current) .satp)
    (hafter : s.Live c.current → after ≠ none)
    (hsp : (s.hart.reg .sp).toNat = L.taskTrapFrame c.current)
    (hcall : CSwitching L s.hart h c.current s.sched.currentTask)
    (hstack : ChangedIn (L.stackRange c.current) s.mem m)
    (hswitched : Switched h m (L.context c.current) (L.context s.sched.currentTask) r.1 r.2) :
    Advanced L fits W c
      { machine := s.after r
        phase := .resuming
        suspended := Function.update c.suspended c.current
          (some ⟨h.reg, m, (s.hart.reg .sp).toNat, after⟩) } := by
  have hchanged : ChangedIn (kernelPart L c.current) s.mem r.2 :=
    (hstack.mono fun a ha => Or.inr ha).trans (hswitched.changed.mono fun a ha => Or.inl ha)
  -- `switch_to` saves the root that the task itself runs on
  have hsaved : s.Live c.current → contextLoad r.2 (L.context c.current) .satp
      = contextLoad s.mem (L.context c.current) .satp := by
    intro hlive
    rw [hswitched.saved_satp, hcall.csr, hsatp hlive]
  have hlast : OnBehalf L fits W c.current s (s.after r) :=
    OnBehalf.of_kernelWrite hb.memOk hchanged (fun a ha => ha) hsaved rfl rfl (fun _ => Iff.rfl)
      fun _ _ => rfl
  have hall := hb.trans hlast
  refine ⟨⟨hlast.memOk, hok, ?_, fun huser => ?_, fun _ => hswitched.loaded,
    fun id hid _ => ?_⟩, hall, fun j hj _ => Function.update_of_ne hj _ _⟩
  · exact hswitched.loaded_satp
  · cases huser
  change Waiting L r.2 (Function.update c.suspended c.current _ id) id
  change s.Live id at hid
  by_cases hidc : id = c.current
  · -- the task that is left waits behind its call of `switch_to`
    subst hidc
    rw [Function.update_self]
    have hspLe := hcall.sp
    rw [hsp] at hspLe
    have hframe : L.taskTrapFrame c.current = L.kernelStack c.current + (4096 - sizeofTrapframe) :=
      rfl
    refine Or.inr ⟨_, rfl, hswitched.saved, hcall.ra, hsp, ?_, fun a ha ha' => ?_, hafter hid⟩
    · change _ ≤ (h.reg .sp).toNat
      omega
    · change (h.reg .sp).toNat ≤ a at ha
      change a < (s.hart.reg .sp).toNat at ha'
      change r.2 a = m a
      apply hswitched.changed
      intro hmem
      refine Layout.contextRange_not_stack hmem (?_ : a ∈ L.stackRange c.current)
      rw [Layout.stackRange, Set.mem_Ico, L.kernelStackEnd_eq]
      omega
  · rw [Function.update_of_ne hidc]
    refine hc.waiting_of_onBehalf hall hW (fun j hj hj' => ?_) hidc hid
    have hjc : j ≠ c.current := fun heq => hj (heq ▸ hc.live)
    refine (hfresh j hj hj').congr fun a ha => hchanged a ?_
    exact fun hmem => kernelPart_disjoint hjc.symm hmem (Or.inl ha)

/-! ### Going on after a switch -/

/-- The task that was switched to goes on at one of two places. -/
theorem Inv.resume_cases (hc : Inv L fits c) (hphase : c.phase = .resuming) :
    (Fresh L c.machine.mem c.current ∧ c.machine.hart.reg .ra = L.trapReturn ∧
      (c.machine.hart.reg .sp).toNat = L.taskTrapFrame c.current) ∨
    ∃ k, c.suspended c.current = some k ∧ Left L c.machine.mem k c.current ∧
      c.machine.hart.reg .ra = L.switchReturn ∧ k.Matches c.machine.hart c.machine.mem := by
  have hreg := hc.resuming hphase
  have hra := hreg (.ra, .ra) (by decide)
  have hsp := hreg (.sp, .sp) (by decide)
  rcases hc.waiting _ hc.live (Or.inr hphase) with h | ⟨k, hk, h⟩
  · refine Or.inl ⟨h, by rw [hra, h.ra], ?_⟩
    have hlt := frame_lt L c.current
    rw [hsp, h.sp, BitVec.toNat_ofNat]
    omega
  · refine Or.inr ⟨k, hk, h, ?_, fun p hp => ?_, fun a ha ha' => h.stack a ha ha'⟩
    · rw [hra, h.context (.ra, .ra) (by decide), h.ra]
    · rw [hreg p hp, h.context p hp]

/-! ### Steps -/

theorem OnBehalf.of_hart {s : Machine n} {j : Fin n} (hmem : MemOk L fits s) (h : Hart) :
    OnBehalf L fits W j s { s with hart := h } :=
  OnBehalf.of_kernelWrite (A := ∅) hmem (ChangedIn.refl _ _)
    (fun a ha => absurd ha (Set.notMem_empty a)) (fun _ => rfl) rfl rfl (fun _ => Iff.rfl)
    fun _ _ => rfl

/-- A step that keeps kernel data and the states of all tasks, and stays in user mode. -/
theorem Advanced.of_user {s : Machine n} (hc : Inv L fits c) (hphase : c.phase = .user)
    (hb : OnBehalf L fits ∅ c.current c.machine s) (hsched : s.sched = c.machine.sched)
    (hcsr : s.hart.csr = c.machine.hart.csr) (hpriv : s.hart.priv = c.machine.hart.priv)
    (hcontext : ∀ a ∈ L.contextRange c.current, s.mem a = c.machine.mem a) :
    Advanced L fits ∅ c { c with machine := s } := by
  have hcur : Config.current { c with machine := s } = c.current :=
    congrArg Sched.currentTask hsched
  refine ⟨⟨hb.memOk, ?_, ?_, fun hp => ?_, fun hres => ?_, fun id hid hother => ?_⟩, hb,
    fun _ _ _ => rfl⟩
  · change s.sched.Ok
    rw [hsched]
    exact hc.sched
  · rw [hcur]
    change s.hart.csr .satp = contextLoad s.mem _ _
    rw [hcsr, contextLoad_congr hcontext]
    exact hc.satp
  · rw [hcur]
    change s.hart.priv = _ ∧ (s.hart.csr _).toNat = _
    rw [hpriv, hcsr]
    exact hc.user hp
  · change c.phase = .resuming at hres
    rw [hphase] at hres
    cases hres
  · -- what waits has not been touched
    rw [hcur] at hother
    change s.Live id at hid
    change id ≠ c.current ∨ c.phase = .resuming at hother
    rw [hphase] at hother
    refine hc.waiting_of_onBehalf hb (fun a ha => absurd ha (Set.notMem_empty a))
      (fun j hj hj' => ?_) (hother.resolve_right (by simp)) hid
    rw [Machine.Live, hsched] at hj'
    exact absurd hj' hj

/-- A store of a user program. -/
theorem Advanced.of_store {va entry : Word} (hc : Inv L fits c) (hphase : c.phase = .user)
    (hentry : leafEntry c.machine.mem c.machine.pgd va = some entry) (hw : UserWritable entry)
    (b : Byte) : Advanced L fits ∅ c { c with
      machine := c.machine.withMem (storeByte c.machine.mem (physAddr entry va) b) } := by
  rw [hc.pgd_eq] at hentry
  obtain ⟨free, hspaces⟩ := hc.memOk.spaces
  have hok := hspaces.ok c.current _ (pgds_of_live hc.live)
  obtain ⟨hge, hout, hother⟩ := physAddr_apart hc.memOk hc.live hentry
    ((hok.leafOk va entry hentry).kernelEnd_le hw)
  refine Advanced.of_user hc hphase ?_ rfl rfl rfl fun a ha => ?_
  · refine (OnBehalf.of_store hc.memOk hout b).mono fun a ha j hj hlive hmem => ?_
    rw [Set.mem_singleton_iff.mp ha] at hmem
    exact absurd hmem (hother j hj hlive)
  · apply storeByte_of_ne
    rintro rfl
    exact absurd (Layout.mem_contextRange_bounds ha).2 (by omega)

/-- A step keeps the invariant and is taken on behalf of the current task. -/
theorem Step.advanced (hstep : Step L img c e c') (hc : Inv L fits c) (hfits : fits → img.Fits)
    (hsafe : SafeRead L c e) : Advanced L fits (c.stores e) c c' := by
  have hnone : ∀ a ∈ (∅ : Set ℕ), a ∉ kernelBytes L c.machine :=
    fun a ha => absurd ha (Set.notMem_empty a)
  cases hstep with
  | compute hphase reg pc =>
    exact Advanced.of_user hc hphase (OnBehalf.of_hart hc.memOk _) rfl rfl rfl fun _ _ => rfl
  | store hphase b hentry hw => exact Advanced.of_store hc hphase hentry hw b
  | @returned hphase service cause tval ch v s h m hserve hreturn hstack =>
    -- `trap_entry` saves the registers, the handler runs, and `trap_return` restores them
    have ht := entered_spec (hc.user hphase).2 cause tval
    obtain ⟨hserviced, hok, hcurrent⟩ := serve_good ht hc.entered hfits
      (fun a ha => ⟨ha, hsafe a ha⟩) hserve
    have hsp : (h.reg .sp).toNat = L.taskTrapFrame c.current := by
      rw [hreturn.sp, hserviced.reg, ht.sp]
    obtain ⟨hm, hret⟩ := leave_spec (m := m) hsp (frame_lt L _)
    have hb := (ht.onBehalf hc.memOk (c.stores (.trap service cause tval ch))).trans
      hserviced.onBehalf
    refine Advanced.of_returned (s := s) hc hb hsafe hok hcurrent
      (fun id hid => hserviced.fresh id ((ht.live_iff id).not.mpr hid))
      ?_ ?_ hret rfl rfl hphase rfl
    · rw [hserviced.reg, ht.sp] at hstack
      rw [hm]
      exact (hstack.mono fun a ha => callStack_subset ha).trans (changedIn_frame L _ _ _ _)
    · rw [hreturn.csr]
      exact hserviced.satp (hok.live hcurrent)
  | @switched hphase service cause tval ch prev after s h m hserve hcall hstack =>
    -- the handler ends in `switch_to`, which leaves the task behind its call
    have ht := entered_spec (hc.user hphase).2 cause tval
    obtain ⟨hserviced, hok, rfl, hne, hafter⟩ := serve_good ht hc.entered hfits
      (fun a ha => ⟨ha, hsafe a ha⟩) hserve
    have hsp : (s.hart.reg .sp).toNat = L.taskTrapFrame c.current := by
      rw [hserviced.reg, ht.sp]
    have hb := (ht.onBehalf hc.memOk (c.stores (.trap service cause tval ch))).trans
      hserviced.onBehalf
    have hprev := context_toNat L c.current
    have hnext := context_toNat L s.sched.currentTask
    refine Advanced.of_switched hc hb hsafe hok
      (fun id hid => hserviced.fresh id ((ht.live_iff id).not.mpr hid)) hserviced.satp hafter hsp
      hcall ?_ (switchTo_spec ?_ ?_ hprev.2 hnext.2)
    · rw [hsp] at hstack
      exact hstack.mono fun a ha => callStack_subset ha
    · rw [hcall.a0, hprev.1]
    · rw [hcall.a1, hnext.1]
  | fresh hphase hra =>
    -- a new task: `trap_return` on the frame it was made with
    obtain ⟨-, -, hsp⟩ | ⟨k, -, -, hra', -⟩ := hc.resume_cases hphase
    · obtain ⟨hret, hm⟩ := trapReturn_spec (m := c.machine.mem) hsp (frame_lt L _)
      refine Advanced.of_returned (s := c.machine) hc (OnBehalf.refl hc.memOk) hnone hc.sched rfl
        (fun id hid hid' => absurd hid' hid) ?_ hc.satp hret rfl rfl rfl rfl
      rw [hm]
      exact ChangedIn.refl _ _
    · exact absurd (hra'.symm.trans hra) L.returns_ne
  | @tail hphase k v h m hra hsuspended hmatches hafter hsp ha0 hcsr hpriv hstack =>
    -- the task goes on behind the call that it left by
    obtain ⟨-, hra', -⟩ | ⟨k', hk', hleft, -, -⟩ := hc.resume_cases hphase
    · exact absurd (hra.symm.trans hra') L.returns_ne
    · obtain rfl := Option.some.inj (hsuspended.symm.trans hk')
      rw [hleft.frame] at hsp hstack
      obtain ⟨hm, hret⟩ := leave_spec (m := m) hsp (frame_lt L _)
      refine Advanced.of_returned (s := c.machine) hc (OnBehalf.refl hc.memOk) hnone hc.sched rfl
        (fun id hid hid' => absurd hid' hid) ?_ ?_ hret rfl rfl rfl rfl
      · rw [hm]
        exact (hstack.mono fun a ha => callStack_subset ha).trans (changedIn_frame L _ _ _ _)
      · rw [hcsr]
        exact hc.satp
  | lost hphase hfresh htail =>
    -- the loaded context is that of a new task or of one that left by a call
    obtain ⟨-, hra, -⟩ | ⟨k, hk, -, hra, hmatches⟩ := hc.resume_cases hphase
    · exact absurd hra hfresh
    · exact absurd ⟨hra, k, hk, hmatches⟩ htail

end RiscvKernel
