import RiscvKernel.System.Continue

/-!
# Isolation of the tasks

What a step that stores no input does to the tasks it is not taken for, and what a user program
can write to. Both hold in every reachable state (`tasks_isolated`): a task other than the current
one keeps its page table, the bytes it leads to and its trapframe, and a store of a user program
misses the kernel image, all page tables and the free list.
-/

namespace RiscvKernel

open ByteMemory RadixTable Riscv

variable {n : ℕ}

/-- The byte that the page table of task `j` leads to at a virtual address, if it maps it. -/
def userByte (L : Layout n) (s : Machine n) (j : Fin n) (va : Word) : Option Byte :=
  (leafEntry s.mem (taskPageTable L s.mem j) va).map fun e => s.mem (physAddr e va)

/-- From `s` to `s'` nothing of task `j` has changed: no entry of its page table, no byte it leads
to, and not its trapframe. -/
structure Untouched (L : Layout n) (s s' : Machine n) (j : Fin n) : Prop where
  live : s'.Live j
  pgd : taskPageTable L s'.mem j = taskPageTable L s.mem j
  tables : sv39.tables s'.mem 3 (taskPageTable L s'.mem j)
    = sv39.tables s.mem 3 (taskPageTable L s.mem j)
  entry : ∀ q ∈ sv39.tables s.mem 3 (taskPageTable L s.mem j), ∀ i < 512,
    loadWord s'.mem (q + 8 * i) = loadWord s.mem (q + 8 * i)
  translation : ∀ va, leafEntry s'.mem (taskPageTable L s'.mem j) va
    = leafEntry s.mem (taskPageTable L s.mem j) va
  byte : ∀ va, userByte L s' j va = userByte L s j va
  frame : ∀ f, tfLoad s'.mem (L.taskTrapFrame j) f = tfLoad s.mem (L.taskTrapFrame j) f

variable {L : Layout n} {img : AppImage} {fits : Prop} {c c' : Config n} {e : Event n} {j : Fin n}
  {s s' : Machine n} {va : Word} {b : Byte}

/-- The same user memory has the same bytes at all addresses. -/
theorem SameUser.userByte (h : SameUser L s s' j) (va : Word) :
    userByte L s' j va = userByte L s j va := by
  unfold RiscvKernel.userByte
  rw [h.leafEntry]
  cases hentry : RiscvKernel.leafEntry s.mem (taskPageTable L s.mem j) va with
  | none => rfl
  | some w =>
    have hbyte := h.byte va w hentry _ (Nat.mod_lt va.toNat (by decide))
    exact congrArg some hbyte

/-- What is done on behalf of another task leaves a task untouched. -/
theorem OnBehalf.untouched {i : Fin n} (h : OnBehalf L fits ∅ i s s') (hmem : MemOk L fits s)
    (hne : j ≠ i) (hlive : s.Live j) : Untouched L s s' j := by
  have hspared := h.spared j hne hlive
  have huser := hspared.sameUser hmem hlive h.text
  obtain ⟨free, hspaces⟩ := hmem.spaces
  have hal := (hspaces.isPage_pgd (pgds_of_live hlive)).aligned
  have hbyte : ∀ a ∈ territory L s j, s'.mem a = s.mem a :=
    fun a ha => hspared.bytes a ha (Set.notMem_empty a)
  refine ⟨hspared.live, hspared.pgd, ?_, fun q hq i hi => ?_, huser.leafEntry, huser.userByte,
    tfLoad_congr fun a ha => hbyte a (Or.inl (Or.inr ha))⟩
  · rw [hspared.pgd, EntryFormat.tables, hspared.nodes]
    rfl
  · -- an entry lies in a page that the task owns
    refine loadWord_congr fun k hk => hbyte _ (Or.inr ?_)
    change pageOf _ ∈ ownedPages L s j
    have hpage : q ∈ sv39.pages s.mem 3 (taskPageTable L s.mem j) :=
      Multiset.mem_of_le (EntryFormat.tables_le_nodes _ _ _ _) hq
    rw [Nat.add_assoc, pageOf_add (EntryFormat.aligned_of_mem_pages hal hpage) (by omega)]
    exact Multiset.mem_of_le (EntryFormat.tables_le_nodes _ _ _ _) hq

/-- A store of a user program misses the memory of the kernel. -/
theorem Step.store_outside (hstep : Step L img c (.store va b) c') (hc : Inv L fits c) {a : ℕ}
    (ha : a < L.kernelEnd ∨ a ∈ kernelBytes L c.machine) :
    c'.machine.mem a = c.machine.mem a := by
  cases hstep with
  | store hphase b hentry hw =>
    rw [hc.pgd_eq] at hentry
    obtain ⟨hge, hout, -⟩ := physAddr_apart hc.memOk hc.live hentry
      ((hc.memOk.leafOk hc.live hentry).kernelEnd_le hw)
    apply storeByte_of_ne
    rintro rfl
    rcases ha with hlt | hmem
    · omega
    · exact hout hmem

/-- In every reachable state, no step touches a task other than the one it is taken for, and no
store of a user program touches the memory of the kernel. -/
theorem tasks_isolated [NeZero n] (h : Reachable L img NoRead c) (hno : NoRead c e)
    (hstep : Step L img c e c') :
    (∀ j, j ≠ c.current → c.machine.Live j → Untouched L c.machine c'.machine j) ∧
    ∀ va b, e = .store va b → ∀ a, a < L.kernelEnd ∨ a ∈ kernelBytes L c.machine →
      c'.machine.mem a = c.machine.mem a := by
  have hc : Inv L False c := h.inv False.elim fun _ _ hno => hno.safeRead
  have hadv := hstep.advanced hc False.elim hno.safeRead
  have hstores : c.stores e = ∅ := hno
  rw [hstores] at hadv
  refine ⟨fun j hne hlive => hadv.onBehalf.untouched hc.memOk hne hlive, ?_⟩
  rintro va b rfl a ha
  exact hstep.store_outside hc ha

/-- The first task has cloned itself, and stores a byte in its stack page. -/
theorem exists_tasks_isolated : ∃ c c' : Config 2, Reachable twoSlots minimalImage NoRead c ∧
    c.current ≠ 1 ∧ c.machine.Live 1 ∧
    Step twoSlots minimalImage c (.store userStackPageVa 1) c' ∧
    (∀ j, j ≠ c.current → c.machine.Live j → Untouched twoSlots c.machine c'.machine j) ∧
    ∀ a, a < twoSlots.kernelEnd ∨ a ∈ kernelBytes twoSlots c.machine →
      c'.machine.mem a = c.machine.mem a := by
  obtain ⟨c, e, hreach, huser, hsched, he, hwritable⟩ := exists_twoLive
  have hcurrent : c.current ≠ 1 := by
    rw [Config.current, hsched]
    decide
  have hlive : c.machine.Live 1 := by
    rw [Machine.Live, hsched]
    decide
  have hstep : Step twoSlots minimalImage c (.store userStackPageVa 1) _ :=
    .store huser 1 he hwritable
  have hno : NoRead c (.store userStackPageVa 1) := rfl
  obtain ⟨huntouched, houtside⟩ := tasks_isolated hreach hno hstep
  exact ⟨c, _, hreach, hcurrent, hlive, hstep, huntouched, houtside _ _ rfl⟩

end RiscvKernel
