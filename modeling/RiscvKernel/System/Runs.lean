import RiscvKernel.System.Boot

/-!
# Runs

The invariant holds in every state of a run, and a run leaves a task alone as long as the task is
not the current one.

* `Reachable.inv`: the invariant, in every reachable state.
* `SameUser`: the user memory of a task is unchanged, as a task sees it through its page table.
* `Inv.run_spared`: a task that is not current during a run.
* `Inv.resumed`: what the step after a switch restores.
* `Inv.run_split`: a run up to the return of a task to user mode ends with such a step.
-/

namespace RiscvKernel

open ByteMemory RadixTable Riscv Relation

variable {n : ℕ} {L : Layout n} {img : AppImage} {fits : Prop} {W : Set ℕ}
  {P : Config n → Event n → Prop} {c c' : Config n} {e : Event n} {i j : Fin n}

/-- The invariant holds at the end of a run. -/
theorem Inv.run (hc : Inv L fits c) (hrun : Run L img P c c') (hfits : fits → img.Fits)
    (hP : ∀ c e, P c e → SafeRead L c e) : Inv L fits c' := by
  induction hrun with
  | refl => exact hc
  | tail _ hstep ih =>
    obtain ⟨e, he, hstep⟩ := hstep
    exact (hstep.advanced ih hfits (hP _ e he)).inv

/-- The invariant holds in every reachable state. -/
theorem Reachable.inv [NeZero n] (h : Reachable L img P c) (hfits : fits → img.Fits)
    (hP : ∀ c e, P c e → SafeRead L c e) : Inv L fits c := by
  obtain ⟨c₀, hboot, hrun⟩ := h
  exact hboot.inv.run hrun hfits hP

theorem Reachable.mono [NeZero n] {Q : Config n → Event n → Prop} (h : Reachable L img P c)
    (hP : ∀ c e, P c e → Q c e) : Reachable L img Q c := by
  obtain ⟨c₀, hboot, hrun⟩ := h
  refine ⟨c₀, hboot, ReflTransGen.mono (fun c c' hstep => ?_) _ _ hrun⟩
  obtain ⟨e, he, hstep⟩ := hstep
  exact ⟨e, hP c e he, hstep⟩

theorem Reachable.step [NeZero n] (h : Reachable L img P c) (hP : P c e)
    (hstep : Step L img c e c') : Reachable L img P c' := by
  obtain ⟨c₀, hboot, hrun⟩ := h
  exact ⟨c₀, hboot, hrun.tail ⟨e, hP, hstep⟩⟩

/-! ### User memory -/

/-- From `s` to `s'` the page table of task `j` leads to the same bytes with the same flags. -/
structure SameUser (L : Layout n) (s s' : Machine n) (j : Fin n) : Prop where
  pgd : taskPageTable L s'.mem j = taskPageTable L s.mem j
  nodes : ∀ leaf, sv39.nodes leaf s'.mem 3 (taskPageTable L s.mem j)
    = sv39.nodes leaf s.mem 3 (taskPageTable L s.mem j)
  entry : ∀ va, leafEntry s'.mem (taskPageTable L s.mem j) va
    = leafEntry s.mem (taskPageTable L s.mem j) va
  byte : ∀ va e, leafEntry s.mem (taskPageTable L s.mem j) va = some e →
    ∀ b < 4096, s'.mem ((pteToPa e).toNat + b) = s.mem ((pteToPa e).toNat + b)

theorem SameUser.trans {s s' s'' : Machine n} (h : SameUser L s s' j) (h' : SameUser L s' s'' j) :
    SameUser L s s'' j where
  pgd := h'.pgd.trans h.pgd
  nodes leaf := by
    have hnodes := h'.nodes leaf
    rw [h.pgd] at hnodes
    rw [hnodes, h.nodes leaf]
  entry va := by
    have hentry := h'.entry va
    rw [h.pgd] at hentry
    rw [hentry, h.entry va]
  byte va e he b hb := by
    have hbyte := h'.byte va e
    rw [h.pgd, h.entry] at hbyte
    rw [hbyte he b hb, h.byte va e he b hb]

theorem SameUser.symm {s s' : Machine n} (h : SameUser L s s' j) : SameUser L s' s j where
  pgd := h.pgd.symm
  nodes leaf := by
    rw [h.pgd]
    exact (h.nodes leaf).symm
  entry va := by
    rw [h.pgd]
    exact (h.entry va).symm
  byte va e he b hb := by
    rw [h.pgd, h.entry] at he
    exact (h.byte va e he b hb).symm

theorem SameUser.pages {s s' : Machine n} (h : SameUser L s s' j) :
    sv39.pages s'.mem 3 (taskPageTable L s'.mem j) =
      sv39.pages s.mem 3 (taskPageTable L s.mem j) := by
  rw [h.pgd]
  exact h.nodes _

theorem SameUser.leafEntry {s s' : Machine n} (h : SameUser L s s' j) (va : Word) :
    RiscvKernel.leafEntry s'.mem (taskPageTable L s'.mem j) va
      = RiscvKernel.leafEntry s.mem (taskPageTable L s.mem j) va := by
  rw [h.pgd, h.entry]

theorem MemOk.leafOk {s : Machine n} (h : MemOk L fits s) (hlive : s.Live j) {va e : Word}
    (he : leafEntry s.mem (taskPageTable L s.mem j) va = some e) : LeafOk L e := by
  obtain ⟨free, hspaces⟩ := h.spaces
  exact (hspaces.ok j _ (pgds_of_live hlive)).leafOk va e he

/-- A task that is spared keeps its user memory. -/
theorem Spared.sameUser {s s' : Machine n} (h : Spared L ∅ s s' j) (hmem : MemOk L fits s)
    (hlive : s.Live j) (htext : ∀ a, textStart ≤ a → a < L.rodataEnd → s'.mem a = s.mem a) :
    SameUser L s s' j := by
  refine ⟨h.pgd, h.nodes, h.entry, fun va e he b hb => ?_⟩
  have hok := hmem.leafOk hlive he
  rcases hok.byte_bounds hb with hge | ⟨hlo, hhi⟩
  · -- the frame is one of the pages of the task
    have hframe : L.kernelEnd ≤ (pteToPa e).toNat := by
      rcases hok with hok | ⟨-, hlt, -⟩
      · exact hok
      · have hal := pteToPa_aligned e
        have hend := L.rodataEnd_aligned
        have hle := L.rodataEnd_le_kernelEnd
        rw [PageAligned] at hal hend
        omega
    refine h.bytes _ (Or.inr ?_) (Set.notMem_empty _)
    change pageOf _ ∈ ownedPages L s j
    rw [pageOf_add (pteToPa_aligned e) hb]
    exact frame_mem_owned he hframe
  · exact htext _ hlo hhi

/-- Kernel data is no user memory. -/
theorem SameUser.of_kernelWrite {s s' : Machine n} {A : Set ℕ} (hmem : MemOk L fits s)
    (hlive : s.Live j) (hchanged : ChangedIn A s.mem s'.mem)
    (hA : ∀ a ∈ A, L.rodataEnd ≤ a ∧ a < L.kernelEnd)
    (hsatp : contextLoad s'.mem (L.context j) .satp = contextLoad s.mem (L.context j) .satp) :
    SameUser L s s' j := by
  obtain ⟨free, hspaces⟩ := hmem.spaces
  have hp := pgds_of_live hlive (L := L)
  have hal := (hspaces.isPage_pgd hp).aligned
  have himage : EqOff L.image s.mem s'.mem := Layout.eqOff_image hchanged fun a ha => (hA a ha).2
  have hout : ∀ x ∈ owned L.kernelEnd s.mem 3 (taskPageTable L s.mem j), x ∉ L.image :=
    fun x hx himg => Layout.notMem_managed_of_image himg
      (hspaces.mem_managed (.task j) ((Spaces.mem_held_task hp).mpr hx))
  refine ⟨taskPageTable_congr hsatp, fun leaf => ?_, fun va => leafEntry_eqOff himage hal hout,
    fun va e he b hb => hchanged _ fun hin => ?_⟩
  · exact EntryFormat.nodes_eqOff himage hal
      fun x hx => hout x (Multiset.mem_of_le (EntryFormat.tables_le_nodes _ _ _ _) hx)
  · have hbounds := hA _ hin
    have hok := (hmem.leafOk hlive he).byte_bounds hb
    omega

/-- A copy of an address space stays one while its user memory is unchanged. -/
theorem SameSpace.sameUser {m : Mem} {p : ℕ} {s s' : Machine n}
    (h : SameSpace m s.mem p (taskPageTable L s.mem j)) (hu : SameUser L s s' j) :
    SameSpace m s'.mem p (taskPageTable L s'.mem j) := by
  rw [hu.pgd]
  exact h.congr_right hu.entry hu.byte

/-! ### Tasks that are not current -/

/-- What a run that leaves task `j` alone keeps: its memory but for input, and what is known of its
suspended call. -/
structure LeftAlone (L : Layout n) (W : Set ℕ) (j : Fin n) (c c' : Config n) : Prop where
  spared : Spared L W c.machine c'.machine j
  suspended : c'.suspended j = c.suspended j
  text : ∀ a, textStart ≤ a → a < L.rodataEnd → c'.machine.mem a = c.machine.mem a

theorem LeftAlone.trans {c'' : Config n} (h : LeftAlone L W j c c') (h' : LeftAlone L W j c' c'') :
    LeftAlone L W j c c'' where
  spared := h.spared.trans h'.spared
  suspended := h'.suspended.trans h.suspended
  text a ha ha' := (h'.text a ha ha').trans (h.text a ha ha')

/-- A run in which task `j` is not current leaves it alone. -/
theorem Inv.run_spared (hc : Inv L fits c) (hrun : Run L img P c c') (hfits : fits → img.Fits)
    (hP : ∀ c e, P c e → SafeRead L c e ∧ (∀ a ∈ c.stores e, a ∈ W) ∧ c.current ≠ j)
    (hlive : c.machine.Live j) : LeftAlone L W j c c' := by
  induction hrun with
  | refl => exact ⟨Spared.refl hlive, rfl, fun _ _ _ => rfl⟩
  | tail hrun hstep ih =>
    rename_i c₁ c₂
    obtain ⟨e, he, hstep⟩ := hstep
    obtain ⟨hsafe, hW, hne⟩ := hP _ e he
    have hadv := hstep.advanced (hc.run hrun hfits fun c e h => (hP c e h).1) hfits hsafe
    have hlive₁ := ih.spared.live
    refine ih.trans ⟨?_, hadv.suspended j hne.symm hlive₁, hadv.onBehalf.text⟩
    exact (hadv.onBehalf.spared j hne.symm hlive₁).mono fun a ha _ => hW a ha

/-- Outside the kernel's data and its read-only part. -/
def outsideImage (L : Layout n) : Set ℕ := {a | a < textStart ∨ L.kernelEnd ≤ a}

theorem SafeRead.outsideImage (h : SafeRead L c e) : ∀ a ∈ c.stores e, a ∈ outsideImage L := by
  intro a ha
  have hout := h a ha
  rw [RiscvKernel.outsideImage, Set.mem_ofPred_eq]
  by_contra hin
  rw [not_or, not_lt, not_le] at hin
  exact hout (Or.inl hin)

theorem NoRead.notMem (h : NoRead c e) : ∀ a ∈ c.stores e, a ∈ (∅ : Set ℕ) := by
  rw [NoRead] at h
  rw [h]
  exact fun _ ha => ha

theorem Spared.kernelPart_eq {s s' : Machine n} (h : Spared L W s s' j)
    (hW : ∀ a ∈ W, a ∈ outsideImage L) : ∀ a ∈ kernelPart L j, s'.mem a = s.mem a := by
  intro a ha
  refine h.bytes a (Or.inl ha) fun hmem => ?_
  have hlow := mem_kernelPart_bounds ha
  have htext := L.text_le.trans L.rodata_le
  have hout := hW a hmem
  rw [outsideImage, Set.mem_ofPred_eq] at hout
  omega

theorem LeftAlone.frame_eq (h : LeftAlone L W j c c') (hW : ∀ a ∈ W, a ∈ outsideImage L)
    (f : TfField) : tfLoad c'.machine.mem (L.taskTrapFrame j) f
      = tfLoad c.machine.mem (L.taskTrapFrame j) f :=
  tfLoad_congr (fun a ha => h.spared.kernelPart_eq hW a (Or.inr ha)) f

/-! ### Going on after a switch -/

/-- A step that is not taken right after a switch and does not make one keeps the current task. -/
theorem Step.current_eq (hstep : Step L img c e c') (hc : Inv L fits c) (hfits : fits → img.Fits)
    (hsafe : SafeRead L c e) (hphase : c'.phase = .user) : c'.current = c.current := by
  cases hstep with
  | compute => rfl
  | store => rfl
  | @returned huser service cause tval ch v s h m hserve =>
    have ht := entered_spec (hc.user huser).2 cause tval
    obtain ⟨-, -, hcurrent⟩ := serve_good ht hc.entered hfits (fun a ha => ⟨ha, hsafe a ha⟩) hserve
    exact hcurrent
  | switched => cases hphase
  | fresh => rfl
  | tail => rfl
  | lost hres hfresh htail =>
    obtain ⟨-, hra, -⟩ | ⟨k, hk, -, hra, hmatches⟩ := hc.resume_cases hres
    · exact absurd hra hfresh
    · exact absurd ⟨hra, k, hk, hmatches⟩ htail

/-- The registers of a task that has returned to user mode are those of its trapframe. -/
def Restored (L : Layout n) (m : Mem) (id : Fin n) (pc : Word) (h : Hart) : Prop :=
  h.priv = .user ∧ h.pc = pc ∧ ∀ r, h.reg r = tfLoad m (L.taskTrapFrame id) (regField r)

/-- What a trap path that has stored the program counter leaves. -/
theorem restored_of_leave {h : Hart} {m : Mem} {id : Fin n}
    (hsp : (h.reg .sp).toNat = L.taskTrapFrame id) :
    Restored L m id (h.reg .a0) (leave h m).1 := by
  obtain ⟨-, hret⟩ := leave_spec (m := m) hsp (frame_lt L id)
  refine ⟨hret.priv, ?_, fun r => ?_⟩
  · rw [hret.pc, tfLoad_tfStore, if_pos rfl]
  · rw [hret.reg, tfLoad_tfStore, if_neg (regField_ne_epc r)]

/-- The step after a switch takes the task that was switched to back to user mode. -/
theorem Inv.resumed (hc : Inv L fits c) (hphase : c.phase = .resuming)
    (hstep : Step L img c e c') :
    c'.phase = .user ∧ c'.current = c.current ∧
      ((Fresh L c.machine.mem c.current ∧ c'.machine.mem = c.machine.mem ∧
        Restored L c.machine.mem c.current
          (tfLoad c.machine.mem (L.taskTrapFrame c.current) .epc) c'.machine.hart) ∨
      ∃ k v, c.suspended c.current = some k ∧ Left L c.machine.mem k c.current ∧
        k.after = some v ∧ Restored L c.machine.mem c.current v c'.machine.hart) := by
  have hcases := hc.resume_cases hphase
  cases hstep with
  | compute huser | store huser | returned huser | switched huser =>
    rw [hphase] at huser
    cases huser
  | fresh hres hra =>
    obtain ⟨hfresh, -, hsp⟩ | ⟨k, -, -, hra', -⟩ := hcases
    · obtain ⟨hret, hm⟩ := trapReturn_spec (m := c.machine.mem) hsp (frame_lt L _)
      exact ⟨rfl, rfl, Or.inl ⟨hfresh, hm, hret.priv, hret.pc, hret.reg⟩⟩
    · exact absurd (hra'.symm.trans hra) L.returns_ne
  | @tail hres k v h m hra hsuspended hmatches hafter hsp ha0 hcsr hpriv hstack =>
    obtain ⟨-, hra', -⟩ | ⟨k', hk', hleft, -, -⟩ := hcases
    · exact absurd (hra.symm.trans hra') L.returns_ne
    · obtain rfl := Option.some.inj (hsuspended.symm.trans hk')
      rw [hleft.frame] at hsp hstack
      obtain ⟨hpriv', hpc, hreg⟩ := restored_of_leave (m := m) hsp
      refine ⟨rfl, rfl, Or.inr ⟨k, v, hsuspended, hleft, hafter, hpriv', ?_, fun r => ?_⟩⟩
      · exact hpc.trans ha0
      · refine (hreg r).trans (loadWord_congr fun b hb => hstack _ fun hmem => ?_)
        -- the call uses the kernel stack below the trapframe only
        rw [callStack, Set.mem_Ico] at hmem
        omega
  | lost hres hfresh htail =>
    obtain ⟨-, hra, -⟩ | ⟨k, hk, -, hra, hmatches⟩ := hcases
    · exact absurd hra hfresh
    · exact absurd ⟨hra, k, hk, hmatches⟩ htail

/-- A run up to the first time that task `i` is back in user mode: first other tasks run, then a
switch to task `i`, and the step after it. -/
theorem Inv.run_split (hc : Inv L fits c) (hfits : fits → img.Fits)
    (hP : ∀ c e, P c e → SafeRead L c e)
    (hrun : Run L img (fun c e => P c e ∧ ¬ (c.phase = .user ∧ c.current = i)) c c')
    (hne : c.current ≠ i) (hphase : c'.phase = .user) (hcurrent : c'.current = i) :
    ∃ c₁ e, Run L img (fun c e => P c e ∧ c.current ≠ i) c c₁ ∧ c₁.current = i ∧
      c₁.phase = .resuming ∧ Step L img c₁ e c' := by
  induction hrun using ReflTransGen.head_induction_on with
  | refl => exact absurd hcurrent hne
  | head hstep hrest ih =>
    rename_i c₀ c₁
    obtain ⟨e, ⟨hPe, -⟩, hstep⟩ := hstep
    have hc₁ := (hstep.advanced hc hfits (hP _ e hPe)).inv
    have hfirst : Run L img (fun c e => P c e ∧ c.current ≠ i) c₀ c₁ :=
      ReflTransGen.single ⟨e, ⟨hPe, hne⟩, hstep⟩
    by_cases hi : c₁.current = i
    · -- the task has just been switched to, and one more step takes it back
      have hres : c₁.phase = .resuming := by
        cases hp : c₁.phase with
        | resuming => rfl
        | user => exact absurd ((hstep.current_eq hc hfits (hP _ e hPe) hp).symm.trans hi) hne
      rcases hrest.cases_head with rfl | ⟨c₂, ⟨e₂, -, hstep₂⟩, hrest₂⟩
      · rw [hres] at hphase
        cases hphase
      · obtain ⟨huser₂, hcur₂, -⟩ := hc₁.resumed hres hstep₂
        rcases hrest₂.cases_head with rfl | ⟨c₃, ⟨e₃, ⟨-, hnot⟩, -⟩, -⟩
        · exact ⟨c₁, e₂, hfirst, hi, hres, hstep₂⟩
        · exact absurd ⟨huser₂, hcur₂.trans hi⟩ hnot
    · -- still another task, so the rest of the run is split
      obtain ⟨c₂, e₂, hrun₂, hrest⟩ := ih hc₁ hi
      exact ⟨c₂, e₂, hfirst.trans hrun₂, hrest⟩

end RiscvKernel
