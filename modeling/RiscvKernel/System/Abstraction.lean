import RiscvKernel.System.Isolation
import RiscvKernel.System.Process

/-!
# The processes that the kernel keeps

The process that a task slot stands for: the registers are those of the hart while the task runs,
and otherwise those of its trapframe; the address space is what the page table of the task leads to
(`Config.process`). All slots in use together are a world of processes (`Config.world`).

* `userSpace_of_sameUser`, `userSpace_of_sameSpace`: when two tasks have the same address space.
* `Advanced.process_awake`, `Advanced.process_eq`: the process of a task that a step is not taken
  for.
-/

namespace RiscvKernel

open ByteMemory RadixTable Riscv

variable {n : ℕ}

/-! ### Address spaces -/

/-- What a leaf entry lets a user program do. -/
def entryRights (e : Word) : Rights where
  read := e &&& pteU ≠ 0 ∧ e &&& pteR ≠ 0
  write := e &&& pteU ≠ 0 ∧ e &&& pteW ≠ 0
  exec := e &&& pteU ≠ 0 ∧ e &&& pteX ≠ 0

/-- The byte, and what a program may do with it, that a page table leads to at an address. -/
def cellAt (m : Mem) (pgd : ℕ) (va : Word) : Option Cell :=
  (leafEntry m pgd va).map fun e => ⟨entryRights e, m (physAddr e va)⟩

/-- The address space that a page table leads to. -/
def tableSpace (m : Mem) (pgd : ℕ) : Space := fun a => cellAt m pgd (a.setWidth 64)

/-- The address space of a task. -/
def userSpace (L : Layout n) (s : Machine n) (id : Fin n) : Space :=
  tableSpace s.mem (taskPageTable L s.mem id)

variable {L : Layout n} {img : AppImage} {fits : Prop} {W : Set ℕ} {s s' : Machine n}
  {c c' : Config n} {id : Fin n} {m m' : Mem} {p p' : ℕ} {e e' va va' : Word}

/-- The walk looks at 39 bits of an address. -/
theorem getVpn_congr (h : va'.toNat % 2 ^ 39 = va.toNat % 2 ^ 39) {k : ℕ} (hk : k ≤ 2) :
    getVpn va' k = getVpn va k := by
  rw [getVpn_eq, getVpn_eq]
  obtain rfl | rfl | rfl : k = 0 ∨ k = 1 ∨ k = 2 := by omega
  all_goals omega

theorem leafEntry_congr (h : va'.toNat % 2 ^ 39 = va.toNat % 2 ^ 39) :
    leafEntry m p va' = leafEntry m p va :=
  EntryFormat.leafAt_congr fun _ => getVpn_congr h

theorem cellAt_congr (h : va'.toNat % 2 ^ 39 = va.toNat % 2 ^ 39) :
    cellAt m p va' = cellAt m p va := by
  have haddr : ∀ e, physAddr e va' = physAddr e va := by
    intro e
    rw [physAddr, physAddr]
    omega
  rw [cellAt, cellAt, leafEntry_congr h]
  simp only [haddr]

theorem toNat_spaceAddr (va : Word) : (spaceAddr va).toNat = va.toNat % 2 ^ 39 :=
  BitVec.toNat_setWidth _ _

/-- A program finds in its address space what its page table leads to. -/
theorem tableSpace_spaceAddr (m : Mem) (p : ℕ) (va : Word) :
    tableSpace m p (spaceAddr va) = cellAt m p va := by
  refine cellAt_congr ?_
  rw [BitVec.toNat_setWidth, toNat_spaceAddr]
  omega

/-- The same entries with the same bytes behind them are the same address space. -/
theorem tableSpace_congr (hentry : ∀ va, leafEntry m' p' va = leafEntry m p va)
    (hbyte : ∀ va e, leafEntry m p va = some e → ∀ b < 4096,
      m' ((pteToPa e).toNat + b) = m ((pteToPa e).toNat + b)) :
    tableSpace m' p' = tableSpace m p := by
  funext a
  rw [tableSpace, tableSpace, cellAt, cellAt, hentry]
  cases he : leafEntry m p (a.setWidth 64) with
  | none => rfl
  | some e =>
    rw [Option.map_some, Option.map_some, physAddr, hbyte _ e he _ (Nat.mod_lt _ (by decide))]

theorem userSpace_of_sameUser (h : SameUser L s s' id) : userSpace L s' id = userSpace L s id :=
  tableSpace_congr h.leafEntry h.byte

theorem entryRights_write : (entryRights e).write = true ↔ UserWritable e := decide_eq_true_iff

/-- The rights are among the flags. -/
theorem entryRights_congr (h : pteFlags e' = pteFlags e) : entryRights e' = entryRights e := by
  have hbit : ∀ bit : Word, bit &&& 0x3FF#64 = bit → e' &&& bit = e &&& bit := by
    intro bit hlow
    rw [← hlow, BitVec.and_comm bit, ← BitVec.and_assoc, ← BitVec.and_assoc, ← pteFlags, h,
      pteFlags]
  simp [entryRights, hbit pteU (by decide), hbit pteR (by decide), hbit pteW (by decide),
    hbit pteX (by decide)]

/-- A copy of an address space. -/
theorem tableSpace_of_sameSpace (h : SameSpace m m' p p') : tableSpace m' p' = tableSpace m p := by
  funext a
  rw [tableSpace, tableSpace, cellAt, cellAt]
  rcases h (a.setWidth 64) with ⟨hnone, hnone'⟩ | ⟨e, e', he, he', hflags, hbytes⟩
  · rw [hnone, hnone', Option.map_none, Option.map_none]
  · rw [he, he', Option.map_some, Option.map_some, entryRights_congr hflags, physAddr,
      hbytes _ (Nat.mod_lt _ (by decide))]
    rfl

/-! ### Processes -/

/-- The task runs in user mode. -/
def Config.Runs (c : Config n) (id : Fin n) : Prop := c.phase = .user ∧ id = c.current

instance (c : Config n) (id : Fin n) : Decidable (c.Runs id) :=
  inferInstanceAs (Decidable (_ ∧ _))

/-- Where a task that does not run goes on: where its trapframe says if it is new, and otherwise
where the handler that it has left by a switch returns to. -/
def Config.savedPc (L : Layout n) (c : Config n) (id : Fin n) : Word :=
  if contextLoad c.machine.mem (L.context id) .ra = L.trapReturn then
    tfLoad c.machine.mem (L.taskTrapFrame id) .epc
  else ((c.suspended id).bind Suspended.after).getD 0

/-- The process that a task stands for. -/
def Config.process (L : Layout n) (c : Config n) (id : Fin n) : Process where
  reg r := if c.Runs id then c.machine.hart.reg r
    else tfLoad c.machine.mem (L.taskTrapFrame id) (regField r)
  pc := if c.Runs id then c.machine.hart.pc else c.savedPc L id
  space := userSpace L c.machine id
  awake := c.machine.sched.taskStates id ≠ .sleeping

/-- The processes of all slots in use. -/
def Config.world (L : Layout n) (c : Config n) : World n where
  current := c.current
  proc id := if c.machine.Live id then some (c.process L id) else none

theorem world_current (L : Layout n) (c : Config n) : (c.world L).current = c.current := rfl

theorem world_proc_of_live (h : c.machine.Live id) :
    (c.world L).proc id = some (c.process L id) := if_pos h

theorem world_proc_of_not_live (h : ¬ c.machine.Live id) : (c.world L).proc id = none := if_neg h

/-- The process of a task in user mode. -/
theorem process_of_runs (h : c.Runs id) : c.process L id =
    { reg := c.machine.hart.reg, pc := c.machine.hart.pc, space := userSpace L c.machine id,
      awake := c.machine.sched.taskStates id ≠ .sleeping } := by
  simp only [Config.process, if_pos h]

/-- The process of a task that waits. -/
theorem process_of_not_runs (h : ¬ c.Runs id) : c.process L id =
    { reg := fun r => tfLoad c.machine.mem (L.taskTrapFrame id) (regField r)
      pc := c.savedPc L id
      space := userSpace L c.machine id
      awake := c.machine.sched.taskStates id ≠ .sleeping } := by
  simp only [Config.process, if_neg h]

/-- Kernel data that has not changed leads to the same place. -/
theorem savedPc_congr (hm : ∀ a ∈ kernelPart L id, c'.machine.mem a = c.machine.mem a)
    (hsuspended : c'.suspended id = c.suspended id) : c'.savedPc L id = c.savedPc L id := by
  rw [Config.savedPc, Config.savedPc, contextLoad_congr (fun a ha => hm a (Or.inl ha)) .ra,
    tfLoad_congr (fun a ha => hm a (Or.inr ha)) .epc, hsuspended]

/-- A step leaves the process of a task alone that it is not taken for, but for putting it to sleep
or waking it up. -/
theorem Advanced.process_awake (h : Advanced L fits ∅ c c') (hmem : MemOk L fits c.machine)
    (hne : id ≠ c.current) (hlive : c.machine.Live id) (hruns : ¬ c'.Runs id) :
    c'.process L id
      = { c.process L id with awake := c'.machine.sched.taskStates id ≠ .sleeping } := by
  have hspared := h.onBehalf.spared id hne hlive
  have hkernel : ∀ a ∈ kernelPart L id, c'.machine.mem a = c.machine.mem a :=
    fun a ha => hspared.bytes a (Or.inl ha) (Set.notMem_empty a)
  have huser := hspared.sameUser hmem hlive h.onBehalf.text
  rw [process_of_not_runs hruns, process_of_not_runs fun hr => hne hr.2]
  refine Process.ext ?_ ?_ ?_ rfl
  · funext r
    exact tfLoad_congr (fun a ha => hkernel a (Or.inr ha)) (regField r)
  · exact savedPc_congr hkernel (h.suspended id hne hlive)
  · exact userSpace_of_sameUser huser

theorem Advanced.process_eq (h : Advanced L fits ∅ c c') (hmem : MemOk L fits c.machine)
    (hne : id ≠ c.current) (hlive : c.machine.Live id) (hruns : ¬ c'.Runs id)
    (hstate : c'.machine.sched.taskStates id = .sleeping ↔
      c.machine.sched.taskStates id = .sleeping) :
    c'.process L id = c.process L id := by
  rw [h.process_awake hmem hne hlive hruns]
  refine Process.ext rfl rfl rfl ?_
  simp only [Config.process, ne_eq, hstate]

end RiscvKernel
