import RiscvKernel.System.Continue

/-!
# Consistency of every run

What the invariant says about pages and about the scheduler, in every reachable state.

* `pages_conserved`: every managed page is free, or a table of the kernel's own page table, or
  reached from the page table of one live task, and exactly one of these, once.
* `run_consistent`: the current task is the running one and the hardware uses its page table.
-/

namespace RiscvKernel

open ByteMemory RadixTable Riscv Ledger

variable {n : ℕ} {L : Layout n} {img : AppImage} {c : Config n} {s : Machine n} {free : List ℕ}
  {x : ℕ} {fits : Prop}

/-! ### Pages -/

/-- The pages found from each holder: on the free list, as table pages of `root_page_table`, and as
tables and frames of the page table that the context of a live task names. -/
def reachedFrom (L : Layout n) (s : Machine n) (free : List ℕ) : Holder n → Multiset ℕ
  | .free => ↑free
  | .kernel => sv39.tables s.mem 3 s.rootPageTable
  | .task id => if s.Live id then sv39.pages s.mem 3 (taskPageTable L s.mem id) else 0

/-- A managed page is reached from its holder as often as it is held. -/
theorem count_reachedFrom (hx : L.kernelEnd ≤ x) (o : Holder n) :
    (reachedFrom L s free o).count x
      = (held L s.mem s.rootPageTable (pgds L s) free o).count x := by
  cases o with
  | free => rfl
  | kernel => rfl
  | task id =>
    rw [held_task, reachedFrom]
    by_cases hlive : s.Live id
    · rw [if_pos hlive, pgds_of_live hlive, ownedBy_some, count_owned hx]
    · rw [if_neg hlive, pgds_of_not_live hlive, ownedBy_none]

/-- In every reachable state each managed page is reached from exactly one holder, once. -/
theorem pages_conserved [NeZero n] (hfits : img.Fits) (h : Reachable L img NoRead c) :
    ∃ free, FreePages c.machine.phys free ∧
      ∀ x, PageAligned x → L.kernelEnd ≤ x → x < ramEnd →
        ∃ o : Holder n, (reachedFrom L c.machine free o).count x = 1 ∧
          ∀ o', o' ≠ o → (reachedFrom L c.machine free o').count x = 0 := by
  have hinv : Inv L True c := h.inv (fun _ => hfits) fun _ _ hno => hno.safeRead
  obtain ⟨free, hspaces⟩ := hinv.memOk.spaces
  refine ⟨free, hspaces.isFree, fun x hal hge hlt => ?_⟩
  have hmanaged : x ∈ L.managed := Layout.mem_managed.mpr ⟨hal, hge, hlt⟩
  obtain ⟨o, hone, hzero⟩ :=
    (hspaces.settled trivial).existsUnique_owner L.nodup_managed hmanaged
  refine ⟨o, ?_, fun o' ho' => ?_⟩
  · rw [count_reachedFrom hge]
    exact hone
  · rw [count_reachedFrom hge]
    exact hzero o' ho'

/-- On a kernel with two task slots, the first task has cloned itself. -/
theorem exists_pages_conserved : ∃ c : Config 2, Reachable twoSlots minimalImage NoRead c ∧
    (∀ id, c.machine.Live id) ∧ ∃ free, FreePages c.machine.phys free ∧
      ∀ x, PageAligned x → twoSlots.kernelEnd ≤ x → x < ramEnd →
        ∃ o : Holder 2, (reachedFrom twoSlots c.machine free o).count x = 1 ∧
          ∀ o', o' ≠ o → (reachedFrom twoSlots c.machine free o').count x = 0 := by
  obtain ⟨c, -, hreach, -, hsched, -⟩ := exists_twoLive
  refine ⟨c, hreach, fun id => ?_, pages_conserved minimalImage_slots hreach⟩
  rw [Machine.Live, hsched]
  revert id
  decide

/-! ### The scheduler -/

/-- The states of the tasks, `current_task`, and the page tables that the hardware and the contexts
name agree with each other. -/
structure Consistent (L : Layout n) (c : Config n) : Prop where
  /-- Exactly one slot is `TASK_RUNNING`, and it is `current_task`. -/
  running : ∀ id, c.machine.sched.taskStates id = .running ↔ id = c.current
  satp : c.machine.hart.csr .satp = contextLoad c.machine.mem (L.context c.current) .satp
  /-- No page of the table in use has been freed. -/
  notFree : ∃ free, FreePages c.machine.phys free ∧
    ∀ x ∈ sv39.pages c.machine.mem 3 c.machine.pgd, x ∉ free
  distinct : ∀ i j, i ≠ j → c.machine.Live i → c.machine.Live j →
    taskPageTable L c.machine.mem i ≠ taskPageTable L c.machine.mem j
  /-- A handler finds the table in use through the context of the current task. -/
  found : ∀ cause tval, taskPageTable L (entered L cause tval c.machine).mem
    (entered L cause tval c.machine).sched.currentTask = c.machine.pgd

/-- No page of the table of a live task is free. -/
theorem MemOk.pages_notFree (h : MemOk L fits s) {id : Fin n} (hlive : s.Live id) :
    ∃ free, FreePages s.phys free ∧
      ∀ x ∈ sv39.pages s.mem 3 (taskPageTable L s.mem id), x ∉ free := by
  obtain ⟨free, hspaces⟩ := h.spaces
  refine ⟨free, hspaces.isFree, fun x hx hfree => ?_⟩
  -- a free page lies above the kernel image, where reached pages are owned
  have hge := (Layout.mem_managed.mp (hspaces.mem_managed .free hfree)).2.1
  refine hspaces.notMem .free (.task id) (by simp) hfree ?_
  rw [Spaces.mem_held_task (pgds_of_live hlive)]
  exact mem_owned_of_mem_pages hx hge

/-- The invariant makes states and page tables agree at every return to user mode. -/
theorem Inv.consistent (h : Inv L fits c) (huser : c.phase = .user) : Consistent L c where
  running := h.sched
  satp := h.satp
  notFree := by
    rw [h.pgd_eq]
    exact h.memOk.pages_notFree h.live
  distinct i j hij hi hj := by
    obtain ⟨free, hspaces⟩ := h.memOk.spaces
    exact hspaces.pgd_ne (pgds_of_live hi) (pgds_of_live hj) hij
  found cause tval := by
    have ht := entered_spec (h.user huser).2 cause tval
    rw [h.pgd_eq, ht.sched]
    exact taskPageTable_congr (contextLoad_congr (ht.context_eq c.current) .satp)

/-- At every return to user mode the states of the tasks and the page tables agree. -/
theorem run_consistent [NeZero n] (h : Reachable L img (SafeRead L) c)
    (huser : c.phase = .user) : Consistent L c := by
  have hinv : Inv L False c := h.inv False.elim fun _ _ hsafe => hsafe
  exact hinv.consistent huser

/-- On a kernel with two task slots, the first task has cloned itself. -/
theorem exists_run_consistent : ∃ c : Config 2,
    Reachable twoSlots minimalImage (SafeRead twoSlots) c ∧ (∀ id, c.machine.Live id) ∧
      Consistent twoSlots c := by
  obtain ⟨c, -, hreach, huser, hsched, -⟩ := exists_twoLive
  have hreach := hreach.mono fun _ _ hno => hno.safeRead (L := twoSlots)
  refine ⟨c, hreach, fun id => ?_, run_consistent hreach huser⟩
  rw [Machine.Live, hsched]
  revert id
  decide

end RiscvKernel
