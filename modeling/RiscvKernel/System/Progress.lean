import RiscvKernel.System.Runs

/-!
# Progress

The system does not get stuck between two pieces of assembly code: whatever the handler does, the
step is completed, and a task that was switched to goes on. A handler itself hangs only where the
source loops forever; for want of free pages it does so only if there are few of them
(`MemOk.card_managed_le`).

* `exists_returned`, `exists_switched`, `Inv.exists_resume`: the steps.
* `Small`: bounds on the page tables, kept by what is done on behalf of a task.
* `exists_booted`: a kernel with enough memory boots.
-/

namespace RiscvKernel

open ByteMemory RadixTable Riscv Relation Ledger

variable {n : ℕ} {L : Layout n} {img : AppImage} {fits : Prop} {W : Set ℕ}
  {c : Config n} {s s' : Machine n} {cause tval v : Word} {ch : Byte} {service : Service n}
  {prev i : Fin n} {after : Option Word} {B : ℕ}

/-! ### Steps -/

/-- The registers of a user program may be anything. -/
theorem exists_compute (img : AppImage) (hphase : c.phase = .user) (reg : Reg → Word) :
    ∃ c', Step L img c (.compute reg c.machine.hart.pc) c' ∧ c'.phase = .user ∧
      c'.machine = { c.machine with hart := { c.machine.hart with reg := reg } } :=
  ⟨_, .compute hphase reg _, hphase, rfl⟩

/-- A trap whose handler returns ends in user mode. -/
theorem exists_returned (hphase : c.phase = .user)
    (hserve : serve L img service ch (entered L cause tval c.machine) = some (.returned v s)) :
    ∃ c', Step L img c (.trap service cause tval ch) c' ∧ c'.phase = .user ∧
      c'.machine.sched = s.sched ∧ c'.machine.taskUserStacks = s.taskUserStacks := by
  have hreturned : CReturned s.hart (s.hart.setReg .a0 v) v := by
    refine ⟨?_, ?_, rfl, rfl⟩
    · simp
    · simp
  exact ⟨_, .returned hphase hserve hreturned (ChangedIn.refl _ s.mem), hphase, rfl, rfl⟩

/-- A trap whose handler switches ends right after `switch_to`. -/
theorem exists_switched (hphase : c.phase = .user)
    (hserve : serve L img service ch (entered L cause tval c.machine)
      = some (.switching prev after s)) :
    ∃ c', Step L img c (.trap service cause tval ch) c' ∧ c'.phase = .resuming ∧
      c'.machine.sched = s.sched := by
  set h := ((s.hart.setReg .ra L.switchReturn).setReg .a0 (BitVec.ofNat 64 (L.context prev))).setReg
    .a1 (BitVec.ofNat 64 (L.context s.sched.currentTask)) with hh
  have hsp : h.reg .sp = s.hart.reg .sp := by simp [hh]
  have hcall : CSwitching L s.hart h prev s.sched.currentTask := by
    refine ⟨?_, ?_, ?_, ?_, rfl, rfl⟩
    · rw [hsp]
      omega
    · simp [hh]
    · simp [hh]
    · simp [hh]
  exact ⟨_, .switched hphase hserve hcall (ChangedIn.refl _ s.mem), rfl, rfl⟩

/-- `task_yield` switches to the slot that was picked. -/
theorem taskYield_of_pick {next : Fin n}
    (hpick : schedPickNext s.sched.taskStates s.sched.currentTask = some next)
    (hne : next ≠ s.sched.currentTask) :
    taskYield after s = some (.switching s.sched.currentTask after
      { s with sched := schedPrepareSwitch next s.sched }) := by
  rw [taskYield, yieldDecision, hpick, Option.bind_some, if_pos hne, if_pos (by simpa using hne)]

/-- `task_exit` switches to the slot that was picked. -/
theorem taskExit_of_pick {next : Fin n}
    (hpick : schedPickNext (Function.update s.sched.taskStates s.sched.currentTask .dead)
      s.sched.currentTask = some next) (hne : next ≠ s.sched.currentTask) :
    ∃ s', taskExit L s = some (.switching s.sched.currentTask none s') ∧
      s'.sched = schedPrepareSwitch next { s.sched with
        taskStates := Function.update s.sched.taskStates s.sched.currentTask .dead } := by
  rw [taskExit]
  exact ⟨_, taskYield_of_pick hpick hne, rfl⟩

/-- A task that was switched to goes on. -/
theorem Inv.exists_resume (hc : Inv L fits c) (img : AppImage) (hphase : c.phase = .resuming) :
    ∃ c', Step L img c .resume c' ∧ c'.machine.sched = c.machine.sched := by
  obtain ⟨-, hra, -⟩ | ⟨k, hk, hleft, hra, hmatches⟩ := hc.resume_cases hphase
  · exact ⟨_, .fresh hphase hra, rfl⟩
  · obtain ⟨v, hv⟩ := Option.ne_none_iff_exists'.mp hleft.after
    set h := (c.machine.hart.setReg .sp (BitVec.ofNat 64 k.frame)).setReg .a0 v with hh
    have hsp : (h.reg .sp).toNat = k.frame := by
      have hlt := frame_lt L c.current
      rw [← hleft.frame] at hlt
      have hreg : h.reg .sp = BitVec.ofNat 64 k.frame := by simp [hh]
      rw [hreg, BitVec.toNat_ofNat]
      omega
    exact ⟨_, .tail hphase hra hk hmatches hv hsp (by simp [hh]) rfl rfl
      (ChangedIn.refl _ c.machine.mem), rfl⟩

/-! ### Free pages -/

/-- All managed pages are free, or in one of the page tables. -/
theorem MemOk.card_managed_le (h : MemOk L True s)
    (hB : ∀ id, s.Live id → (sv39.pages s.mem 3 (taskPageTable L s.mem id)).card ≤ B) :
    ∃ free, FreePages s.phys free ∧ L.managed.card ≤ free.length
      + (sv39.tables s.mem 3 s.rootPageTable).card + Fintype.card (Holder n) * B := by
  obtain ⟨free, hspaces⟩ := h.spaces
  have hsettled := hspaces.settled trivial
  rw [Settled, sum_eq_others (i := Holder.free) (j := .kernel) _ (by simp)] at hsettled
  -- apart from the free list and the kernel, each holder has at most `B` pages
  have hothers : (others (held L s.mem s.rootPageTable (pgds L s) free) Holder.free .kernel).card
      ≤ Fintype.card (Holder n) * B := by
    rw [others, Multiset.card_sum]
    refine (Finset.sum_le_card_nsmul _ _ B fun o ho => ?_).trans ?_
    · cases o with
      | free => simp at ho
      | kernel => simp at ho
      | task id =>
        rw [held_task]
        by_cases hlive : s.Live id
        · rw [pgds_of_live hlive, ownedBy_some]
          exact (Multiset.card_le_card owned_le_pages).trans (hB id hlive)
        · rw [pgds_of_not_live hlive, ownedBy_none]
          exact Nat.zero_le _
    · exact Nat.mul_le_mul_right _ (Finset.card_le_univ _)
  have hcard := congrArg Multiset.card hsettled
  rw [Multiset.card_add, Multiset.card_add] at hcard
  refine ⟨free, hspaces.isFree, ?_⟩
  change free.length + (sv39.tables s.mem 3 s.rootPageTable).card
    + (others (held L s.mem s.rootPageTable (pgds L s) free) Holder.free .kernel).card = _ at hcard
  omega

/-- The page tables of all live tasks have at most `B` pages, and the kernel's is as at boot. -/
structure Small (L : Layout n) (B : ℕ) (s : Machine n) : Prop where
  root : (sv39.tables s.mem 3 s.rootPageTable).card ≤ 133
  task : ∀ id, s.Live id → (sv39.pages s.mem 3 (taskPageTable L s.mem id)).card ≤ B

/-- Small page tables leave many pages free. -/
theorem Small.le_length (h : Small L B s) (hmem : MemOk L True s)
    {free : List ℕ} (hf : FreePages s.phys free) :
    L.managed.card ≤ free.length + 133 + Fintype.card (Holder n) * B := by
  obtain ⟨free', hf', hcard⟩ := hmem.card_managed_le h.task
  obtain rfl := hf.unique hf'
  have := h.root
  omega

/-- Only the table of the task on whose behalf something is done can grow. -/
theorem Small.of_onBehalf (h : Small L B s) (hb : OnBehalf L fits W i s s')
    (hnew : ∀ id, s'.Live id → id = i ∨ ¬ s.Live id →
      (sv39.pages s'.mem 3 (taskPageTable L s'.mem id)).card ≤ B) : Small L B s' := by
  refine ⟨?_, fun id hid => ?_⟩
  · rw [hb.root, hb.rootTables]
    exact h.root
  · by_cases hnot : id = i ∨ ¬ s.Live id
    · exact hnew id hid hnot
    · rw [not_or, not_not] at hnot
      have hspared := hb.spared id hnot.1 hnot.2
      rw [hspared.pgd, EntryFormat.pages, hspared.nodes]
      exact h.task id hnot.2

/-! ### Boot -/

/-- A kernel with enough memory boots. -/
theorem exists_booted [NeZero n] (L : Layout n) (fits : Prop)
    (hcard : 135 + L.initPages ≤ L.managed.card) :
    ∃ c, Booted L c ∧ c.phase = .user ∧ AtBoot L fits c.machine := by
  have hart : Hart := ⟨fun _ => 0, fun _ => 0, 0, .machine⟩
  obtain ⟨s, hs, hboot, -⟩ := (osMain_spec L fits hart fun _ => 0).exists_of_not_stuck (by omega)
  exact ⟨⟨s, .user, fun _ => none⟩, ⟨hart, _, hs, rfl, rfl⟩, rfl, hboot⟩

/-- At boot only slot 0 is in use. -/
theorem AtBoot.eq_zero_of_live [NeZero n] (h : AtBoot L fits s) (hlive : s.Live i) : i = 0 := by
  rw [Machine.Live, h.sched] at hlive
  by_contra hne
  change Function.update (fun _ => TaskState.dead) 0 .running i ≠ .dead at hlive
  exact hlive (Function.update_of_ne hne _ _)

theorem AtBoot.small [NeZero n] (h : AtBoot L fits s) : Small L (2 + 2 * L.initPages) s := by
  refine ⟨h.rootCard, fun id hid => ?_⟩
  rw [h.eq_zero_of_live hid]
  exact h.card

/-- This kernel boots. -/
theorem exists_booted_twoSlots (fits : Prop) :
    ∃ c, Booted twoSlots c ∧ c.phase = .user ∧ AtBoot twoSlots fits c.machine := by
  obtain ⟨hcard, hpages⟩ := twoSlots_card
  exact exists_booted twoSlots fits (by omega)

theorem minimalImage_pages : mappedPages minimalImage = [userStackPageVa, 0x100000#64] := by
  decide +kernel

theorem minimalImage_slots : minimalImage.Fits := by
  intro _
  rw [minimalImage_pages]
  decide

end RiscvKernel
