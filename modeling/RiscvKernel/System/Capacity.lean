import RiscvKernel.System.Refinement

/-!
# The memory that the kernel needs

With enough memory the kernel never waits for a page: whatever the processes do, it follows them.

* `Step.small`: no page table grows larger than that of the first program or that of the image.
* `kernel_answers`: the kernel follows every action of the world of processes.
* `world_run_followed`: the kernel follows every run of it.
-/

namespace RiscvKernel

open ByteMemory RadixTable Riscv CyclicScan Simulation

variable {n : ℕ}

/-- The most pages that the page table of a task has: those of the first program, or those of the
image. -/
def Layout.maxPages (L : Layout n) (img : AppImage) : ℕ :=
  max (2 + 2 * L.initPages) (5 + 4 * (segmentPages img).length)

/-- There is memory for the page tables of all tasks, and for those that are made and thrown
away. -/
def Layout.Roomy (L : Layout n) (img : AppImage) : Prop :=
  133 + (n + 3) * L.maxPages img ≤ L.managed.card

variable {L : Layout n} {img : AppImage} {fits : Prop} {B : ℕ} {s s' : Machine n}
  {c c' c₀ : Config n} {id : Fin n} {e : Event n} {service : Service n} {cause tval : Word}
  {ch : Byte} {w w' : World n} {after : Option Word} {call : Syscall} {p : Process}

theorem card_holder (n : ℕ) : Fintype.card (Holder n) = n + 2 := by
  let holder : Fin n ⊕ Bool → Holder n := Sum.elim .task (fun taken => cond taken .kernel .free)
  have hbij : Function.Bijective holder := by
    constructor
    · rintro (id | - | -) (id' | - | -) heq <;> simp_all [holder]
    · intro held
      cases held with
      | free => exact ⟨.inr false, rfl⟩
      | kernel => exact ⟨.inr true, rfl⟩
      | task id => exact ⟨.inl id, rfl⟩
  rw [← Fintype.card_of_bijective hbij, Fintype.card_sum, Fintype.card_fin, Fintype.card_bool]

/-! ### The page tables -/

/-- The page table of an image that has been loaded. -/
theorem card_pages_of_exec (hstep : Step L img c (.trap .trapHandler cause tval ch) c')
    (hc : Inv L fits c) (hfits : fits → img.Fits)
    (hcall : (.trapHandler : Service n).call cause c.machine.hart = some .execve)
    (hloads : img.Loads) :
    (sv39.pages c'.machine.mem 3 (taskPageTable L c'.machine.mem c.current)).card
      ≤ 5 + 4 * (segmentPages img).length := by
  obtain ⟨s, maps, taken, rest, -, -, hlen, hbound, -, huser⟩ :=
    hstep.exec_imageBound hc hfits hcall hloads
  -- a page for each table and frame that was taken, and for each mapping
  have hcard := hbound.image.built.card_pages
  have hmaps := congrArg List.length hbound.image.vas
  rw [List.length_map, List.length_reverse, mappedPages, List.length_cons] at hmaps
  rw [Multiset.coe_card] at hcard
  rw [huser.pages]
  omega

/-- The page table of the task that a step is taken for. -/
theorem Step.card_pages_current (hstep : Step L img c e c') (hc : Inv L fits c)
    (hfits : fits → img.Fits) (hno : NoRead c e) (hsmall : Small L B c.machine)
    (hB : 5 + 4 * (segmentPages img).length ≤ B) (hlive : c'.machine.Live c.current) :
    (sv39.pages c'.machine.mem 3 (taskPageTable L c'.machine.mem c.current)).card ≤ B := by
  have hsame : SameUser L c.machine c'.machine c.current →
      (sv39.pages c'.machine.mem 3 (taskPageTable L c'.machine.mem c.current)).card ≤ B := by
    intro huser
    rw [huser.pages]
    exact hsmall.task _ hc.live
  cases e with
  | compute reg pc =>
    cases hstep
    exact hsmall.task _ hc.live
  | store va b =>
    cases hstep with
    | store hphase b hentry hwritable =>
      rw [hc.pgd_eq] at hentry
      have hge := (hc.memOk.leafOk hc.live hentry).kernelEnd_le hwritable
      obtain ⟨-, hout, -⟩ := physAddr_apart hc.memOk hc.live hentry hge
      have hspared := Spared.of_store hc.memOk hc.live hout b
      rw [hspared.pgd, EntryFormat.pages, hspared.nodes]
      exact hsmall.task _ hc.live
  | resume => exact hsame (hstep.resume_kept hc).2.2
  | trap service cause tval ch =>
    -- only an exit or an `execve` changes the page table
    by_cases hends : service.Ends img cause c.machine.hart
    · rcases hends with hexit | ⟨hexec, hloads⟩
      · exact absurd hlive (hstep.not_live_of_exit hc hfits hexit)
      · cases service with
        | trapHandler => exact (card_pages_of_exec hstep hc hfits hexec hloads).trans hB
        | sleep | wakeup => cases hexec
    · exact hsame (hstep.trap_sameUser hc hfits hno hends).1

/-- No page table grows larger than that of the first program or that of the image. -/
theorem Step.small (hstep : Step L img c e c') (hc : Inv L fits c) (hfits : fits → img.Fits)
    (hno : NoRead c e) (hsmall : Small L B c.machine)
    (hB : 5 + 4 * (segmentPages img).length ≤ B) : Small L B c'.machine := by
  refine hsmall.of_onBehalf (hstep.advanced_noRead hc hfits hno).onBehalf fun id hid hcases => ?_
  rcases hcases with rfl | hborn
  · exact hstep.card_pages_current hc hfits hno hsmall hB hid
  · -- a slot that comes into use holds a copy
    rw [(hstep.cloned_of_born hc hfits hno hborn hid).card]
    exact hsmall.task _ hc.live

/-! ### Handlers -/

/-- The kernel finds the next process if there is one. -/
theorem exists_taskYield (hcurrent : w.current = s.sched.currentTask)
    (hawake : ∀ id, w.awake id = taskIsRunnable s.sched.taskStates id)
    (hafter : taskIsRunnable s.sched.taskStates s.sched.currentTask = true → after ≠ none)
    (hyield : w.yield = some w') : ∃ r, taskYield after s = some r := by
  rw [World.yield, Option.map_eq_some_iff] at hyield
  obtain ⟨next, hscan, -⟩ := hyield
  rw [funext hawake, hcurrent] at hscan
  have hpick : schedPickNext s.sched.taskStates s.sched.currentTask = some next := hscan
  -- if the task itself is next, it goes on
  by_cases hne : next = s.sched.currentTask
  · rw [hne] at hpick
    obtain ⟨v, hv⟩ := Option.ne_none_iff_exists'.mp (hafter (scan_eq_some hpick).1)
    refine ⟨.returned v s, ?_⟩
    rw [taskYield, yieldDecision, hpick, hv]
    simp
  · exact ⟨_, taskYield_of_pick hpick hne⟩

/-- A state in which the kernel is about to run a program, with small page tables. -/
structure Ready (L : Layout n) (img : AppImage) (c : Config n) : Prop where
  inv : Inv L True c
  user : c.phase = .user
  small : Small L (L.maxPages img) c.machine

/-- The free pages suffice for a page table that is made while the old ones are still there. -/
theorem Ready.le_length (h : Ready L img c) (hroom : L.Roomy img) (ht : TrapTaken L c.current cause
    c.machine s) {free : List ℕ} (hf : FreePages s.phys free) : L.maxPages img ≤ free.length := by
  have hmem := (ht.entered h.inv.entered).memOk
  have hlength := (h.small.entered h.inv ht).le_length hmem hf
  rw [card_holder] at hlength
  rw [Layout.Roomy, show n + 3 = n + 2 + 1 from rfl, Nat.add_one_mul] at hroom
  omega

/-- `task_fork` needs no more pages than the parent has. -/
theorem Ready.taskFork_ne_none (h : Ready L img c) (hroom : L.Roomy img)
    (ht : TrapTaken L c.current cause c.machine s) (epc : Word) :
    taskFork L (L.taskTrapFrame c.current) epc s ≠ none := by
  have he := ht.entered h.inv.entered
  obtain ⟨r, hfork, -⟩ := (taskFork_spec he epc).exists_of_not_stuck fun hstuck => by
    obtain ⟨free, hspaces⟩ := he.memOk.spaces
    have hlt := hstuck free hspaces.isFree
    have hlength := h.le_length hroom ht hspaces.isFree
    have hown := (h.small.entered h.inv ht).task c.current he.live
    omega
  rw [hfork]
  exact Option.some_ne_none r

/-- `task_exec` needs no more pages than the page table of the image has. -/
theorem Ready.taskExec_ne_none (h : Ready L img c) (hfits : img.Fits) (hroom : L.Roomy img)
    (ht : TrapTaken L c.current cause c.machine s) (epc : Word) :
    taskExec L img epc (L.taskTrapFrame c.current) s ≠ none := by
  have he := ht.entered h.inv.entered
  obtain ⟨r, hexec, -⟩ := (taskExec_spec (W := ∅) he (fun _ => hfits)
      epc).exists_of_not_stuck fun hstuck => by
    obtain ⟨free, hspaces⟩ := he.memOk.spaces
    have hlt := hstuck.2 free hspaces.isFree
    have hlength := h.le_length hroom ht hspaces.isFree
    have hmax : 5 + 4 * (segmentPages img).length ≤ L.maxPages img := le_max_right _ _
    omega
  rw [hexec]
  exact Option.some_ne_none r

/-- The kernel carries out every system call that does something to the processes. -/
theorem Ready.exists_handler (h : Ready L img c) (hfits : img.Fits) (hroom : L.Roomy img)
    (ht : TrapTaken L c.current cause c.machine s)
    (hnext : (c.world L).call img (c.process L c.current) call = some w) (arg0 arg1 epc : Word) :
    ∃ r, call.handler L img ch arg0 arg1 epc (L.taskTrapFrame c.current) s = some r := by
  have hcurrent : s.sched.currentTask = c.current := by rw [ht.sched, Config.current]
  have hrunning : c.machine.sched.taskStates c.current = .running := (h.inv.sched _).mpr rfl
  cases call with
  | read =>
    obtain ⟨m, v, heq, -⟩ := doSysRead_spec ch arg0 arg1 epc (L.taskTrapFrame c.current) s
    exact ⟨_, heq⟩
  | write => exact ⟨_, rfl⟩
  | schedYield =>
    -- the processes go on with one that is awake, so the scheduler finds a task
    refine exists_taskYield hcurrent.symm (fun id => ?_) (fun _ => by simp) hnext
    rw [ht.sched]
    refine world_set_awake (fun _ _ => rfl) ?_ id
    rw [taskIsRunnable, hrunning, h.inv.process_current h.user]
    rfl
  | exit =>
    obtain ⟨s₂, hexit, hsched⟩ := exists_taskExit_eq L s
    rw [ht.sched] at hsched
    have hdead : s₂.sched.taskStates c.current = .dead := by
      rw [hsched]
      exact Function.update_self _ _ _
    have hcurrent₂ : s₂.sched.currentTask = c.current := by rw [hsched, Config.current]
    rw [Syscall.handler, doSysExit, hexit]
    refine exists_taskYield hcurrent₂.symm (world_set_awake (fun id hid => ?_) ?_) (fun hrun => ?_)
      hnext
    · rw [hsched]
      exact Function.update_of_ne hid _ _
    · rw [taskIsRunnable, hdead]
      rfl
    · -- the slot that was left is not picked
      rw [hcurrent₂, taskIsRunnable, hdead] at hrun
      cases hrun
  | clone =>
    -- there are pages for one more tree, so the copy does not run out of them
    obtain ⟨⟨child, s'⟩, hfork⟩ := Option.ne_none_iff_exists'.mp (h.taskFork_ne_none hroom ht epc)
    exact ⟨_, by rw [Syscall.handler, doSysClone, hfork, Option.bind_some]⟩
  | execve =>
    obtain ⟨⟨v, s'⟩, hexec⟩ :=
      Option.ne_none_iff_exists'.mp (h.taskExec_ne_none hfits hroom ht epc)
    exact ⟨_, by rw [Syscall.handler, doSysExecve, hexec, Option.bind_some]⟩

/-- A process can only wake up one that sleeps. -/
theorem Inv.sleeping_of_wakeup (hc : Inv L fits c) (huser : c.phase = .user)
    (h : ((c.world L).become (c.process L c.current).skip).wakeup id = some w) :
    c.machine.sched.taskStates id = .sleeping := by
  rw [World.wakeup, Option.bind_eq_some_iff] at h
  obtain ⟨q, hq, h⟩ := h
  rw [World.become_proc, world_current] at hq
  by_cases hid : id = c.current
  · -- the process that runs does not sleep
    rw [hid, Function.update_self, hc.process_current huser] at hq
    obtain rfl := Option.some.inj hq
    cases h
  · rw [Function.update_of_ne hid] at hq
    have hlive : c.machine.Live id := by
      by_contra hdead
      rw [world_proc_of_not_live hdead] at hq
      cases hq
    rw [world_proc_of_live hlive] at hq
    obtain rfl := Option.some.inj hq
    by_contra hnot
    have hawake : (c.process L id).awake = true := decide_eq_true hnot
    rw [hawake, if_pos rfl] at h
    cases h

/-- The kernel serves every trap that does something to the processes. -/
theorem Ready.exists_serve (h : Ready L img c) (hfits : img.Fits) (hroom : L.Roomy img)
    (hnext : (c.world L).next img (.trap service cause) = some w) (tval : Word) (ch : Byte) :
    ∃ r, serve L img service ch (entered L cause tval c.machine) = some r := by
  have ht := entered_spec (h.inv.user h.user).2 cause tval
  generalize entered L cause tval c.machine = s at ht ⊢
  have hcurrent : s.sched.currentTask = c.current := by rw [ht.sched, Config.current]
  have hrunning : c.machine.sched.taskStates c.current = .running := (h.inv.sched _).mpr rfl
  rw [World.next, h.inv.world_proc_current, Option.bind_some, World.act] at hnext
  cases service with
  | sleep =>
    refine exists_taskYield (s := s.setState s.sched.currentTask .sleeping) hcurrent.symm
      (world_set_awake (fun id hid => ?_) ?_) (fun _ => by simp) hnext
    · rw [Machine.setState_taskStates, hcurrent, Function.update_of_ne hid, ht.sched]
    · rw [taskIsRunnable, Machine.setState_taskStates, hcurrent, Function.update_self]
      rfl
  | wakeup id =>
    have hsleeps := h.inv.sleeping_of_wakeup h.user hnext
    rw [← ht.sched] at hsleeps
    exact ⟨_, if_pos hsleeps⟩
  | trapHandler =>
    have ha7 : (c.process L c.current).reg .a7 = c.machine.hart.reg .a7 := by
      rw [h.inv.process_current h.user]
    rw [World.trap, ha7] at hnext
    rw [serve, ht.cause_arg, ht.epc_arg, ht.arg0_arg, ht.arg1_arg, ht.sysNum_arg, ht.tf_arg]
    -- the branches of `trap_handler`; in the last one, a fault, nothing is done
    split_ifs at hnext with hint htimer hcode
    · rw [trapHandler, if_pos hint, if_pos htimer]
      refine exists_taskYield hcurrent.symm (fun id => ?_) (fun _ => by simp) hnext
      rw [world_awake, ht.sched]
    · exact ⟨_, by rw [trapHandler, if_pos hint, if_neg htimer]⟩
    · cases hcall : syscallOf cause (c.machine.hart.reg .a7) with
      | some call =>
        rw [hcall] at hnext
        rw [trapHandler_of_call hcall]
        exact h.exists_handler hfits hroom ht hnext _ _ _
      | none =>
        rw [syscallOf, if_neg hint, if_pos hcode] at hcall
        rw [trapHandler, if_neg hint, if_pos hcode]
        split_ifs at hcall ⊢ with hnum
        · rw [hcall]
          exact ⟨_, rfl⟩
        · exact ⟨_, rfl⟩

/-! ### Runs -/

/-- A read that the world of processes speaks of stores no character. -/
theorem noRead_of_next (hc : Inv L fits c) (huser : c.phase = .user)
    (hnext : (c.world L).next img (.trap service cause) = some w) :
    NoRead c (.trap service cause tval ch) := by
  rw [NoRead, Set.eq_empty_iff_forall_notMem]
  intro a ha
  cases service with
  | sleep | wakeup => exact ha
  | trapHandler =>
    obtain ⟨hcall, h0, h1, h2, -⟩ := ha
    have ha7 : (c.process L c.current).reg .a7 = c.machine.hart.reg .a7 := by
      rw [hc.process_current huser]
    -- the world says nothing about a read that wants input
    have hwants : (c.process L c.current).WantsInput := by
      rw [hc.process_current huser]
      exact ⟨h0, h1, h2⟩
    rw [World.next, hc.world_proc_current, Option.bind_some, World.act,
      World.trap_of_call (by rw [ha7, hcall]), World.call, if_pos hwants] at hnext
    cases hnext

/-- A process stores where its page table lets it. -/
theorem Ready.exists_entry {va : Word} {b : Byte} (h : Ready L img c)
    (hnext : (c.world L).next img (.store va b) = some w) :
    ∃ e, leafEntry c.machine.mem c.machine.pgd va = some e ∧ UserWritable e := by
  rw [World.next, h.inv.world_proc_current, Option.bind_some, World.act,
    Option.map_eq_some_iff] at hnext
  obtain ⟨space, hstore, -⟩ := hnext
  rw [Space.store, Option.bind_eq_some_iff] at hstore
  obtain ⟨cell, hcell, hstore⟩ := hstore
  change userSpace L c.machine c.current (spaceAddr va) = some cell at hcell
  rw [userSpace, tableSpace_spaceAddr, cellAt, Option.map_eq_some_iff, ← h.inv.pgd_eq] at hcell
  obtain ⟨e, he, rfl⟩ := hcell
  split_ifs at hstore with hwrite
  exact ⟨e, he, entryRights_write.mp hwrite⟩

/-- A step that takes the kernel back to user mode. -/
theorem Ready.step (h : Ready L img c) (hfits : img.Fits) (hstep : Step L img c e c')
    (hno : NoRead c e) (hphase : c'.phase = .user) : Ready L img c' where
  inv := (hstep.advanced_noRead h.inv (fun _ => hfits) hno).inv
  user := hphase
  small := hstep.small h.inv (fun _ => hfits) hno h.small (le_max_right _ _)

/-- What the kernel has served ends in user mode, behind a switch if it made one. -/
theorem Ready.exists_back {r : Handled n} (h : Ready L img c) (hfits : img.Fits)
    (hno : NoRead c (.trap service cause tval ch))
    (hserve : serve L img service ch (entered L cause tval c.machine) = some r) :
    ∃ c₁ c', KernelStep L img c (.trap service cause tval ch) c₁ ∧ Inv L True c₁ ∧
      (c' = c₁ ∨ KernelStep L img c₁ .resume c') ∧ Ready L img c' := by
  cases r with
  | returned v s =>
    obtain ⟨c', hstep, hphase, -⟩ := exists_returned h.user hserve
    have hready := h.step hfits hstep hno hphase
    exact ⟨c', c', ⟨hno, hstep⟩, hready.inv, Or.inl rfl, hready⟩
  | switching prev after s =>
    -- the process that is switched to goes on
    obtain ⟨c₁, hstep, hphase, -⟩ := exists_switched h.user hserve
    have hc₁ := (hstep.advanced_noRead h.inv (fun _ => hfits) hno).inv
    obtain ⟨c', hresume, -⟩ := hc₁.exists_resume img hphase
    obtain ⟨hphase', -⟩ := hc₁.resumed hphase hresume
    have hsmall := hstep.small h.inv (fun _ => hfits) hno h.small (le_max_right _ _)
    refine ⟨c₁, c', ⟨hno, hstep⟩, hc₁, Or.inr ⟨noRead_resume, hresume⟩, ?_, hphase', ?_⟩
    · exact (hresume.advanced_noRead hc₁ (fun _ => hfits) noRead_resume).inv
    · exact hresume.small hc₁ (fun _ => hfits) noRead_resume hsmall (le_max_right _ _)

/-- With enough memory the kernel follows every action of the processes. -/
theorem kernel_answers (hlow : img.Low) (hroom : L.Roomy img) :
    Answers (KernelStep L img) (World.next img) Event.action (Ready L img) (Config.world L) where
  answer := by
    intro c a w h hnext
    have hfits : img.Fits := fun hok => (hlow.pagesFit hok).slots
    have hsim : Simulates (KernelStep L img) (World.next img) Event.action (Inv L True)
        (Config.world L) := kernel_simulates (fun _ => hfits) (fun _ => hlow)
    -- a step with this action ends in the world that the action makes
    have hends : ∀ {e c'}, KernelStep L img c e c' → e.action = some a → c'.world L = w := by
      intro e c' hstep haction
      exact Option.some.inj ((hsim.visible h.inv hstep haction).symm.trans hnext)
    cases a with
    | compute reg pc =>
      have hstep : KernelStep L img c (.compute reg pc) _ :=
        ⟨noRead_compute, .compute h.user reg pc⟩
      exact ⟨_, _, .single hstep, rfl, h.step hfits hstep.2 hstep.1 h.user, hends hstep rfl⟩
    | store va b =>
      obtain ⟨e, hentry, hwritable⟩ := h.exists_entry hnext
      have hno : NoRead c (.store va b) := rfl
      have hstep : KernelStep L img c (.store va b) _ := ⟨hno, .store h.user b hentry hwritable⟩
      exact ⟨_, _, .single hstep, rfl, h.step hfits hstep.2 hno h.user, hends hstep rfl⟩
    | trap service cause =>
      have hno : NoRead c (.trap service cause 0 0) := noRead_of_next h.inv h.user hnext
      obtain ⟨r, hserve⟩ := h.exists_serve hfits hroom hnext 0 0
      obtain ⟨c₁, c', hstep, hc₁, rfl | hresume, hready⟩ := h.exists_back hfits hno hserve
      · exact ⟨_, c', .single hstep, rfl, hready, hends hstep rfl⟩
      · refine ⟨_, c', .cons hstep (.single hresume), rfl, hready, ?_⟩
        rw [hsim.hidden hc₁ hresume rfl, hends hstep rfl]

/-- A kernel that has just booted is ready. -/
theorem BootedOn.ready [NeZero n] {m : Mem} (h : BootedOn L m c) : Ready L img c := by
  have hat : AtBoot L True c.machine := h.booted.atBoot
  have hsmall := hat.small
  obtain ⟨-, -, huser, -⟩ := id h
  exact ⟨h.booted.inv, huser, hsmall.root, fun id hid =>
    (hsmall.task id hid).trans (le_max_left _ _)⟩

theorem twoSlots_roomy : twoSlots.Roomy minimalImage := by
  rw [Layout.Roomy, twoSlots_card.1]
  decide +kernel

end RiscvKernel
