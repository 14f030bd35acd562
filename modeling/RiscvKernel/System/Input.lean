import RiscvKernel.Memory.FreeOrder
import RiscvKernel.System.ExecImage
import RiscvKernel.System.Isolation

/-!
# Where input is stored

The read system call should store the character it has received at the virtual address that the
program passes, if the program may write there, and nowhere otherwise (`ReadDelivers`). The handler
uses the address as a physical one, so it does so only if nobody can tell the difference
(`BufferOk`).
-/

namespace RiscvKernel

open ByteMemory RadixTable Riscv

variable {n : ℕ}

/-- The addresses of the trapframe of a task. -/
def frameRange (L : Layout n) (id : Fin n) : Set ℕ :=
  Set.Ico (L.taskTrapFrame id) (L.taskTrapFrame id + sizeofTrapframe)

/-- A read system call with the buffer `buf` that takes the machine from `s` to `s'` delivers the
byte `b` to task `id`: at `buf` if the task may write there, and nowhere otherwise. -/
structure ReadDelivers (L : Layout n) (id : Fin n) (buf : Word) (b : Byte) (s s' : Machine n) :
    Prop where
  mapped : ∀ e, leafEntry s.mem (taskPageTable L s.mem id) buf = some e → UserWritable e →
    userByte L s' id buf = some b ∧ tfLoad s'.mem (L.taskTrapFrame id) .a0 = 1 ∧
      ∀ a, a ∉ frameRange L id → a ≠ physAddr e buf → s'.mem a = s.mem a
  unmapped : (∀ e, leafEntry s.mem (taskPageTable L s.mem id) buf = some e → ¬ UserWritable e) →
    ∀ a, a ∉ frameRange L id → s'.mem a = s.mem a

/-- A store of `b` at the physical address `buf` cannot be told from none outside the trapframe. -/
def StoreHidden (L : Layout n) (id : Fin n) (buf : Word) (b : Byte) (s : Machine n) : Prop :=
  buf.toNat ∈ frameRange L id ∨ s.mem buf.toNat = b

/-- Using `buf` as a physical address goes well: it is the physical address that the page table
maps it to, or everything that the call should store is there already. -/
structure BufferOk (L : Layout n) (id : Fin n) (buf : Word) (b : Byte) (s : Machine n) : Prop where
  mapped : ∀ e, leafEntry s.mem (taskPageTable L s.mem id) buf = some e → UserWritable e →
    buf ≠ 0 ∧ (buf.toNat = physAddr e buf ∨
      (s.mem (physAddr e buf) = b ∧ StoreHidden L id buf b s))
  unmapped : (∀ e, leafEntry s.mem (taskPageTable L s.mem id) buf = some e → ¬ UserWritable e) →
    buf = 0 ∨ StoreHidden L id buf b s

variable {L : Layout n} {id : Fin n} {s s' : Machine n} {free : List ℕ} {buf arg0 epc : Word}
  {b ch : Byte} {e : Word} {m m' : Mem}

/-! ### Reading user memory -/

theorem mem_frameRange_lt {a : ℕ} (ha : a ∈ frameRange L id) : a < L.kernelEnd :=
  (Layout.mem_stackRange_bounds (mem_stackRange_of_frame ha.1 ha.2)).2

/-- A change of the trapframe and of a byte of user memory leaves the page table alone. -/
theorem userByte_of_changed {pa : ℕ} (htree : PrivateTree L.kernelEnd s.rootPageTable s.phys
      (taskPageTable L s.mem id) free)
    (hm : ∀ a, a ∉ frameRange L id → a ≠ pa → s'.mem a = s.mem a) (hpa : L.kernelEnd ≤ pa)
    (hout : pageOf pa ∉ sv39.tables s.mem 3 (taskPageTable L s.mem id)) (va : Word) :
    userByte L s' id va
      = (leafEntry s.mem (taskPageTable L s.mem id) va).map fun e => s'.mem (physAddr e va) := by
  have hpgd : taskPageTable L s'.mem id = taskPageTable L s.mem id := by
    refine taskPageTable_congr (contextLoad_congr (fun a ha => hm a (fun hmem => ?_) ?_) .satp)
    · exact Layout.contextRange_not_stack ha (mem_stackRange_of_frame hmem.1 hmem.2)
    · have := (Layout.mem_contextRange_bounds ha).2
      omega
  have hoff : EqOff (L.image + {pageOf pa}) s.mem s'.mem := by
    intro a ha
    rw [Multiset.mem_add, not_or, Multiset.mem_singleton] at ha
    refine hm a (fun hmem => ha.1 ?_) fun heq => ha.2 (congrArg pageOf heq)
    have := mem_frameRange_lt hmem
    have := pageOf_add_mod a
    exact Layout.mem_image.mpr ⟨pageAligned_pageOf a, by omega⟩
  -- the byte that changes is in no table, so all addresses lead where they led
  have hentry : leafEntry s'.mem (taskPageTable L s.mem id) va
      = leafEntry s.mem (taskPageTable L s.mem id) va := by
    refine EntryFormat.leafAt_eqOff (getVpn_lt va) hoff htree.aligned fun x hx hmem => ?_
    rcases Multiset.mem_add.mp hmem with himg | hpage
    · have := htree.tablesAbove x hx
      have := (Layout.mem_image.mp himg).2
      omega
    · rw [Multiset.mem_singleton.mp hpage] at hx
      exact hout hx
  rw [userByte, hpgd, hentry]

/-! ### The store -/

/-- Outside the trapframe the store shows unless it is hidden. -/
theorem storeHidden_iff (hm : ∀ a, a ∉ frameRange L id →
      s'.mem a = storeByte s.mem buf.toNat b a) :
    (∀ a, a ∉ frameRange L id → s'.mem a = s.mem a) ↔ StoreHidden L id buf b s := by
  refine ⟨fun h => ?_, fun h a ha => ?_⟩
  · by_cases hin : buf.toNat ∈ frameRange L id
    · exact Or.inl hin
    · right
      rw [← h _ hin, hm _ hin, storeByte_same]
  · rw [hm a ha]
    by_cases heq : a = buf.toNat
    · rw [heq, storeByte_same]
      rw [heq] at ha
      exact (h.resolve_left ha).symm
    · exact storeByte_of_ne _ _ heq

/-- The result goes to the trapframe. -/
theorem result_stored (L : Layout n) (id : Fin n) (s : Machine n) (m : Mem) (v : Word) :
    (∀ a, a ∉ frameRange L id →
      (s.withMem (tfStore m (L.taskTrapFrame id) .a0 v)).mem a = m a) ∧
    tfLoad (s.withMem (tfStore m (L.taskTrapFrame id) .a0 v)).mem (L.taskTrapFrame id) .a0 = v := by
  refine ⟨changedIn_tfStore m (L.taskTrapFrame id) .a0 v, ?_⟩
  rw [Machine.withMem_mem, tfLoad_tfStore, if_pos rfl]

/-- When the handler stores the byte, the call does what it should exactly if `buf` is good. -/
theorem stored_delivers_iff (htree : PrivateTree L.kernelEnd s.rootPageTable s.phys
      (taskPageTable L s.mem id) free)
    (hwritable : ∀ va e, leafEntry s.mem (taskPageTable L s.mem id) va = some e → UserWritable e →
      L.kernelEnd ≤ (pteToPa e).toNat) (hbuf : buf ≠ 0)
    (hm : ∀ a, a ∉ frameRange L id → s'.mem a = storeByte s.mem buf.toNat b a)
    (ha0 : tfLoad s'.mem (L.taskTrapFrame id) .a0 = 1) :
    ReadDelivers L id buf b s s' ↔ BufferOk L id buf b s := by
  have hhidden := storeHidden_iff hm
  have hother : ∀ a, a ∉ frameRange L id → a ≠ buf.toNat → s'.mem a = s.mem a :=
    fun a ha hne => (hm a ha).trans (storeByte_of_ne _ _ hne)
  -- where the page table leads to is neither in the trapframe nor in the page table
  have haddr : ∀ e, leafEntry s.mem (taskPageTable L s.mem id) buf = some e → UserWritable e →
      physAddr e buf ∉ frameRange L id ∧
      ((∀ a, a ∉ frameRange L id → a ≠ physAddr e buf → s'.mem a = s.mem a) →
        userByte L s' id buf = some (s'.mem (physAddr e buf))) := by
    intro e he hw
    have hge := hwritable buf e he hw
    have hpa : L.kernelEnd ≤ physAddr e buf := hge.trans (Nat.le_add_right _ _)
    refine ⟨fun hmem => absurd (mem_frameRange_lt hmem) (by omega), fun hrest => ?_⟩
    have hout := htree.frame_notMem_tables he hge
    rw [← pageOf_physAddr e buf] at hout
    rw [userByte_of_changed htree hrest hpa hout, he]
    rfl
  refine ⟨fun h => ⟨fun e he hw => ⟨hbuf, ?_⟩, fun hnot => Or.inr (hhidden.mp (h.unmapped hnot))⟩,
    fun h => ⟨fun e he hw => ?_, fun hnot => hhidden.mpr ((h.unmapped hnot).resolve_left hbuf)⟩⟩
  · obtain ⟨hbyte, -, hrest⟩ := h.mapped e he hw
    obtain ⟨hframe, hread⟩ := haddr e he hw
    rw [hread hrest] at hbyte
    by_cases heq : buf.toNat = physAddr e buf
    · exact Or.inl heq
    · -- nothing has changed, so the byte was there before
      have hsame := hother _ hframe (Ne.symm heq)
      refine Or.inr ⟨hsame.symm.trans (Option.some.inj hbyte), hhidden.mp fun a ha => ?_⟩
      by_cases hne : a = physAddr e buf
      · rw [hne, hsame]
      · exact hrest a ha hne
  · obtain ⟨-, hcases⟩ := h.mapped e he hw
    obtain ⟨hframe, hread⟩ := haddr e he hw
    have hrest : ∀ a, a ∉ frameRange L id → a ≠ physAddr e buf → s'.mem a = s.mem a := by
      intro a ha hne
      rcases hcases with heq | ⟨-, hstore⟩
      · exact hother a ha (heq ▸ hne)
      · exact hhidden.mpr hstore a ha
    refine ⟨?_, ha0, hrest⟩
    rw [hread hrest]
    rcases hcases with heq | ⟨hbyte, hstore⟩
    · rw [hm _ hframe, ← heq, storeByte_same]
    · rw [hhidden.mpr hstore _ hframe, hbyte]

/-- The address 0 is refused, also where the page table maps it. -/
theorem refused_delivers_iff (hbuf : buf = 0)
    (hm : ∀ a, a ∉ frameRange L id → s'.mem a = s.mem a)
    (ha0 : tfLoad s'.mem (L.taskTrapFrame id) .a0 = -1) :
    ReadDelivers L id buf b s s' ↔ BufferOk L id buf b s := by
  refine ⟨fun h => ⟨fun e he hw => ?_, fun _ => Or.inl hbuf⟩, fun h => ⟨fun e he hw => ?_,
    fun _ => hm⟩⟩
  · obtain ⟨-, hone, -⟩ := h.mapped e he hw
    rw [ha0] at hone
    exact absurd hone (by decide)
  · exact absurd hbuf (h.mapped e he hw).1

/-- The read system call with a file descriptor of 0 and a count that is not 0 does what it should
if and only if its buffer is good. -/
theorem read_delivers_iff (htree : PrivateTree L.kernelEnd s.rootPageTable s.phys
      (taskPageTable L s.mem id) free)
    (hwritable : ∀ va e, leafEntry s.mem (taskPageTable L s.mem id) va = some e → UserWritable e →
      L.kernelEnd ≤ (pteToPa e).toNat)
    (ch : Byte) (epc : Word) (hfd : arg0.setWidth 32 = 0#32)
    (hcount : tfLoad s.mem (L.taskTrapFrame id) .a2 ≠ 0) :
    ∃ s', doSysRead ch arg0 buf epc (L.taskTrapFrame id) s = some (.returned (epc + 4#64) s') ∧
      (ReadDelivers L id buf (received ch) s s' ↔ BufferOk L id buf (received ch) s) := by
  obtain ⟨m, v, hread, hcases⟩ := doSysRead_spec ch arg0 buf epc (L.taskTrapFrame id) s
  refine ⟨_, hread, ?_⟩
  obtain ⟨hframe, ha0⟩ := result_stored L id s m v
  rcases hcases with ⟨hempty, rfl, rfl⟩ | ⟨htarget, rfl, rfl⟩
  · have hbuf : buf = 0 := by
      by_contra hne
      have hmem : buf.toNat ∈ readTarget arg0 buf (tfLoad s.mem (L.taskTrapFrame id) .a2) :=
        ⟨hfd, hne, hcount, rfl⟩
      rw [hempty] at hmem
      exact hmem
    exact refused_delivers_iff hbuf hframe ha0
  · exact stored_delivers_iff htree hwritable htarget.2.1 hframe ha0

/-! ### A read that delivers nothing -/

/-- The registers of a program that reads one character into its stack page. -/
def readRegs : Reg → Word
  | .a1 => userStackPageVa
  | .a2 => 1
  | .a7 => 63
  | _ => 0

/-- What the handler finds when the first task has made this call right after boot. -/
theorem exists_read_called : ∃ (c : Config 2) (s : Machine 2) (e : Word) (free : List ℕ),
    Reachable twoSlots minimalImage NoRead c ∧ c.machine.hart.reg = readRegs ∧
      s = entered twoSlots 8#64 0 c.machine ∧
      PrivateTree twoSlots.kernelEnd s.rootPageTable s.phys (taskPageTable twoSlots s.mem 0) free ∧
      (∀ va e, leafEntry s.mem (taskPageTable twoSlots s.mem 0) va = some e → UserWritable e →
        twoSlots.kernelEnd ≤ (pteToPa e).toNat) ∧
      leafEntry s.mem (taskPageTable twoSlots s.mem 0) userStackPageVa = some e ∧
      UserWritable e ∧ tfLoad s.mem (twoSlots.taskTrapFrame 0) .a2 = 1 := by
  obtain ⟨c, hreach, huser, hat, hreg⟩ := exists_compute_twoSlots readRegs
  have hc : Inv twoSlots True c :=
    hreach.inv (fun _ => minimalImage_slots) fun _ _ hno => hno.safeRead
  have hcurrent : c.current = 0 := by rw [Config.current, hat.sched]
  have ht := entered_spec (hc.user huser).2 8#64 0
  have he := ht.entered hc.entered
  have hsame := ht.sameUser hc.memOk hc.live
  obtain ⟨s, hs⟩ : ∃ s, s = entered twoSlots 8#64 0 c.machine := ⟨_, rfl⟩
  rw [← hs, hcurrent] at ht he hsame
  obtain ⟨free, hspaces⟩ := he.memOk.spaces
  obtain ⟨e, hentry, -, hwritable⟩ := hat.userStack
  refine ⟨c, s, e, free, hreach, hreg, hs,
    (he.memOk.privateTree he.live hspaces.isFree).1,
    fun va e' he' hw => (he.memOk.leafOk he.live he').kernelEnd_le hw, ?_, hwritable, ?_⟩
  · rw [hsame.leafEntry]
    exact hentry
  · have hcount : tfLoad s.mem (twoSlots.taskTrapFrame 0) .a2 = c.machine.hart.reg .a2 :=
      ht.frame .a2
    rw [hcount, hreg]
    rfl

/-- This call does what it should if and only if its buffer is good. -/
theorem exists_read_delivers_iff : ∃ (c : Config 2) (s s' : Machine 2),
    Reachable twoSlots minimalImage NoRead c ∧ s = entered twoSlots 8#64 0 c.machine ∧
      doSysRead 0 0 userStackPageVa 0 (twoSlots.taskTrapFrame 0) s = some (.returned 4 s') ∧
      (ReadDelivers twoSlots 0 userStackPageVa 0 s s' ↔
        BufferOk twoSlots 0 userStackPageVa 0 s) := by
  obtain ⟨c, s, e, free, hreach, -, hs, htree, hwritable, -, -, hcount⟩ := exists_read_called
  have hcount' : tfLoad s.mem (twoSlots.taskTrapFrame 0) .a2 ≠ 0 := by
    rw [hcount]
    decide
  have hfd : (0 : Word).setWidth 32 = 0#32 := by decide
  obtain ⟨s', hread, hiff⟩ := read_delivers_iff htree hwritable 0 0 hfd hcount'
  exact ⟨c, s, s', hreach, hs, hread, hiff⟩

/-- The call stores the character at the physical address `USER_STACK_PAGE_VA`, and not in the stack
page. -/
theorem exists_read_not_delivered : ∃ (c : Config 2) (s s' : Machine 2) (ch : Byte) (e : Word),
    Reachable twoSlots minimalImage NoRead c ∧ c.machine.hart.reg = readRegs ∧
      s = entered twoSlots 8#64 0 c.machine ∧
      leafEntry s.mem (taskPageTable twoSlots s.mem 0) userStackPageVa = some e ∧
      UserWritable e ∧
      doSysRead ch 0 userStackPageVa c.machine.hart.pc (twoSlots.taskTrapFrame 0) s
        = some (.returned (c.machine.hart.pc + 4#64) s') ∧
      ¬ ReadDelivers twoSlots 0 userStackPageVa (received ch) s s' := by
  obtain ⟨c, s, e, free, hreach, hregs, hs, htree, hwritable, he, hw, hcount⟩ := exists_read_called
  -- a character that is not in the stack page yet
  obtain ⟨ch, hch⟩ : ∃ ch : Byte, s.mem (physAddr e userStackPageVa) ≠ received ch := by
    by_cases hzero : s.mem (physAddr e userStackPageVa) = received 0
    · refine ⟨1, ?_⟩
      rw [hzero]
      decide
    · exact ⟨0, hzero⟩
  obtain ⟨m, v, hread, hcases⟩ :=
    doSysRead_spec ch 0 userStackPageVa c.machine.hart.pc (twoSlots.taskTrapFrame 0) s
  have htarget : userStackPageVa.toNat
      ∈ readTarget 0 userStackPageVa (tfLoad s.mem (twoSlots.taskTrapFrame 0) .a2) := by
    rw [hcount]
    exact ⟨by decide, by decide, by decide, rfl⟩
  refine ⟨c, s, _, ch, e, hreach, hregs, hs, he, hw, hread, fun hdelivers => ?_⟩
  rcases hcases with ⟨hempty, -⟩ | ⟨-, rfl, rfl⟩
  · rw [hempty] at htarget
    exact htarget
  obtain ⟨hframe, ha0⟩ := result_stored twoSlots 0 s
    (storeByte s.mem userStackPageVa.toNat (received ch)) 1
  have hok := (stored_delivers_iff htree hwritable (by decide) hframe ha0).mp hdelivers
  rcases (hok.mapped e he hw).2 with heq | ⟨hbyte, -⟩
  · -- the stack page lies above the kernel image
    have hge := hwritable _ e he hw
    have hva : userStackPageVa.toNat < twoSlots.kernelEnd := by decide
    rw [physAddr] at heq
    omega
  · exact hch hbyte

end RiscvKernel
