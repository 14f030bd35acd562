import RiscvKernel.System.Exec
import RiscvKernel.System.Progress

/-!
# The address space after exec

What the calling task finds when `task_exec` has loaded an image: the stack page and the segments,
with the bytes of the image and the permissions of the headers, and registers that are zero but for
the entry point and the stack pointer (`exec_builds_image`).

The theorem needs nothing of the state but a page table of the calling task that is its own, which
every live task has in every state of a run (`MemOk.privateTree`).
-/

namespace RiscvKernel

open ByteMemory RadixTable Riscv

variable {n : ℕ} {L : Layout n} {fits : Prop} {s s' : Machine n} {img : AppImage} {id : Fin n}
  {free : List ℕ}

/-- `task_exec` has loaded the image for task `id`. The pages `free` were free before. -/
structure Executed (L : Layout n) (img : AppImage) (id : Fin n) (free : List ℕ)
    (s s' : Machine n) : Prop where
  satp : s'.hart.csr .satp = contextLoad s'.mem (L.context id) .satp
  root : contextLoad s'.mem (L.context id) .satp = mmuMakeSatp (taskPageTable L s'.mem id)
  space : MapsImage img s'.mem (taskPageTable L s'.mem id)
  frame : ∀ f, tfLoad s'.mem (L.taskTrapFrame id) f
    = if f = .userSp then userStackTop else if f = .epc then img.ehdr.eEntry else 0#64
  /-- The new page table has taken pages from the free list, the old one has given back its own. -/
  freed : ∃ free' : List ℕ, FreePages s'.phys free' ∧
    (free' : Multiset ℕ) + owned L.kernelEnd s'.mem 3 (taskPageTable L s'.mem id)
      = ↑free + owned L.kernelEnd s.mem 3 (taskPageTable L s.mem id) ∧
    ∀ x ∈ owned L.kernelEnd s.mem 3 (taskPageTable L s.mem id), free'.count x = 1

/-- `task_exec` has bound to task `id` a page table with the image, built of the pages `taken`; the
other free pages were `rest`. -/
structure ImageBound (L : Layout n) (img : AppImage) (id : Fin n) (maps : List Mapping)
    (taken rest : List ℕ) (s s' : Machine n) : Prop where
  satp : s'.hart.csr .satp = contextLoad s'.mem (L.context id) .satp
  root : contextLoad s'.mem (L.context id) .satp = mmuMakeSatp (taskPageTable L s'.mem id)
  image : HasImage L.kernelEnd img s'.mem (taskPageTable L s'.mem id) maps taken
  frame : ∀ f, tfLoad s'.mem (L.taskTrapFrame id) f
    = if f = .userSp then userStackTop else if f = .epc then img.ehdr.eEntry else 0#64
  freed : ∃ free' : List ℕ, FreePages s'.phys free' ∧
    (free' : Multiset ℕ) = ↑rest + owned L.kernelEnd s.mem 3 (taskPageTable L s.mem id)

/-- The end of `task_exec`, when the image is loaded. -/
theorem imageBound_finishExec {maps : List Mapping} {taken rest : List ℕ} {t : Phys} {q : ℕ}
    (hid : s.sched.currentTask = id) (hq : IsPage q)
    (hreplaced : ∀ (u : Phys) (S : Multiset ℕ), u.freeList = t.freeList → EqOff S t.mem u.mem →
      (∀ x ∈ S, x < L.kernelEnd) →
      let u' := freeUserPageTable L.kernelEnd s.rootPageTable (taskPageTable L s.mem id) u
      HasImage L.kernelEnd img u'.mem q maps taken ∧
        EqOff (owned L.kernelEnd s.mem 3 (taskPageTable L s.mem id)) u.mem u'.mem ∧
        ∃ free', FreePages u' free' ∧ (free' : Multiset ℕ)
          = ↑rest + owned L.kernelEnd s.mem 3 (taskPageTable L s.mem id))
    (hold : PrivateTree L.kernelEnd s.rootPageTable s.phys (taskPageTable L s.mem id) free) :
    ImageBound L img id maps taken rest s (finishExec L img.ehdr.eEntry (taskPageTable L s.mem id) q
      (L.taskTrapFrame id) { s with phys := t }) := by
  obtain ⟨hchanged, hsatp, hframe⟩ := execWrites_spec L id img.ehdr.eEntry q t.mem
  rw [finishExec_eq hid]
  generalize execWrites L id img.ehdr.eEntry q t.mem = m at hchanged hsatp hframe
  have himage : EqOff L.image t.mem m :=
    Layout.eqOff_image hchanged fun a ha => (mem_kernelPart_bounds ha).2
  obtain ⟨hasImage, hoff, hfreed⟩ :=
    hreplaced { t with mem := m } L.image rfl himage fun x hx => (Layout.mem_image.mp hx).2
  generalize freeUserPageTable L.kernelEnd s.rootPageTable (taskPageTable L s.mem id)
    { t with mem := m } = phys' at hasImage hoff hfreed
  -- giving back the old pages writes to no kernel data
  have hkernel : ∀ a, a < L.kernelEnd → phys'.mem a = m a := by
    intro a ha
    apply hoff
    intro hmem
    have hge := hold.owned_above _ hmem
    have := pageOf_add_mod a
    omega
  have hsatp' : contextLoad phys'.mem (L.context id) .satp = mmuMakeSatp q := by
    rw [← hsatp]
    exact contextLoad_congr (fun a ha => hkernel a (Layout.mem_contextRange_bounds ha).2) _
  have hpgd : taskPageTable L phys'.mem id = q := taskPageTable_eq hq hsatp'
  refine ⟨?_, ?_, ?_, fun f => ?_, hfreed⟩
  · change (s.hart.setCsr .satp _).csr .satp = contextLoad phys'.mem _ _
    rw [Hart.setCsr_csr, if_pos rfl, hsatp, hsatp']
  · change contextLoad phys'.mem (L.context id) .satp = mmuMakeSatp (taskPageTable L phys'.mem id)
    rw [hsatp', hpgd]
  · change HasImage L.kernelEnd img phys'.mem (taskPageTable L phys'.mem id) maps taken
    rw [hpgd]
    exact hasImage
  · rw [← hframe f]
    exact tfLoad_congr (fun a ha => hkernel a (Layout.mem_stackRange_bounds ha).2) f

/-- `task_exec` binds a page table with the image if there are enough free pages. -/
theorem taskExec_imageBound (epc : Word)
    (hold : PrivateTree L.kernelEnd s.rootPageTable s.phys
      (taskPageTable L s.mem s.sched.currentTask) free)
    (hroot : L.kernelEnd ≤ s.rootPageTable) (hloads : img.Loads) :
    Outcome (free.length < 4 + 3 * (segmentPages img).length)
      (fun r => r.1 = img.ehdr.eEntry ∧ ∃ maps taken rest,
        (free = taken ++ rest ∧ taken.length ≤ 4 + 3 * (segmentPages img).length) ∧
        ImageBound L img s.sched.currentTask maps taken rest s r.2)
      (taskExec L img epc (L.taskTrapFrame s.sched.currentTask) s) := by
  rw [taskExec, if_neg (not_not.mpr hloads.1), hloads.2]
  dsimp only
  refine (hold.loadImage hroot).bind ?_
  rintro ⟨q, t⟩ ⟨maps, taken, rest, hfree, hq, -, hreplaced⟩
  exact ⟨rfl, maps, taken, rest, hfree, imageBound_finishExec rfl hq hreplaced hold⟩

/-- What `task_exec` does when a handler calls it. -/
theorem Entered.taskExec_imageBound (h : Entered L fits id s) (epc : Word)
    (hf : FreePages s.phys free) (hloads : img.Loads) :
    Outcome (free.length < 4 + 3 * (segmentPages img).length)
      (fun r => r.1 = img.ehdr.eEntry ∧ ∃ maps taken rest,
        (free = taken ++ rest ∧ taken.length ≤ 4 + 3 * (segmentPages img).length) ∧
        ImageBound L img id maps taken rest s r.2)
      (taskExec L img epc (L.taskTrapFrame id) s) := by
  obtain ⟨hold, hroot⟩ := h.memOk.privateTree h.live hf
  obtain rfl := h.current
  exact RiscvKernel.taskExec_imageBound epc hold hroot hloads

/-- A page table with an image whose segments end low enough is as the image says. -/
theorem ImageBound.executed {maps : List Mapping} {taken rest : List ℕ}
    (h : ImageBound L img id maps taken rest s s') (hfree : free = taken ++ rest)
    (hok : validateExecImage img = .ok ()) (hlow : img.Low) : Executed L img id free s s' := by
  obtain ⟨free', hf', hfree'⟩ := h.freed
  have howned : owned L.kernelEnd s'.mem 3 (taskPageTable L s'.mem id) = ↑taken :=
    h.image.built.owned_eq (h.image.slotsDiffer (hlow.pagesFit hok).slots)
  refine ⟨h.satp, h.root, mapsImage_of_hasImage h.image hok hlow, h.frame, free', hf', ?_,
    fun x hx => ?_⟩
  · rw [howned, hfree', hfree, ← Multiset.coe_add]
    abel
  · rw [List.count_eq_one_of_mem hf'.nodup]
    rw [← Multiset.mem_coe, hfree', Multiset.mem_add]
    exact Or.inr hx

/-- `task_exec` loads the image if there are enough free pages. -/
theorem taskExec_executed (epc : Word)
    (hold : PrivateTree L.kernelEnd s.rootPageTable s.phys
      (taskPageTable L s.mem s.sched.currentTask) free)
    (hroot : L.kernelEnd ≤ s.rootPageTable) (hloads : img.Loads) (hlow : img.Low) :
    Outcome (free.length < 4 + 3 * (segmentPages img).length)
      (fun r => r.1 = img.ehdr.eEntry ∧ Executed L img s.sched.currentTask free s r.2)
      (taskExec L img epc (L.taskTrapFrame s.sched.currentTask) s) := by
  refine Outcome.mono (taskExec_imageBound epc hold hroot hloads) (fun h => h) ?_
  rintro r ⟨hentry, maps, taken, rest, ⟨hfree, -⟩, hbound⟩
  exact ⟨hentry, hbound.executed hfree hloads.2 hlow⟩

/-- When `task_exec` returns from loading an image whose segments end at or below `2 ^ 38`, the
calling task has exactly the address space that the image describes and a fresh trapframe, and the
pages of its old address space are free; and `task_exec` returns if there are enough free pages. -/
theorem exec_builds_image (epc : Word)
    (hold : PrivateTree L.kernelEnd s.rootPageTable s.phys
      (taskPageTable L s.mem s.sched.currentTask) free)
    (hroot : L.kernelEnd ≤ s.rootPageTable) (hloads : img.Loads) (hlow : img.Low) :
    (4 + 3 * (segmentPages img).length ≤ free.length →
      taskExec L img epc (L.taskTrapFrame s.sched.currentTask) s ≠ none) ∧
    ∀ v s', taskExec L img epc (L.taskTrapFrame s.sched.currentTask) s = some (v, s') →
      v = img.ehdr.eEntry ∧ Executed L img s.sched.currentTask free s s' := by
  have hspec := taskExec_executed epc hold hroot hloads hlow
  refine ⟨fun henough hnone => ?_, fun v s' hexec => hspec.post_of_eq_some hexec⟩
  obtain ⟨r, hr, -⟩ := hspec.exists_of_not_stuck (by omega)
  rw [hnone] at hr
  cases hr

theorem minimalImage_low : minimalImage.Low := by
  have hnum : minimalImage.ehdr.ePhnum.toNat = 1 := by decide +kernel
  have hend : ∀ i < 1, (minimalImage.phdr i).pVaddr.toNat + (minimalImage.phdr i).pMemsz.toNat
      ≤ 2 ^ 38 := by decide +kernel
  intro i hi _
  rw [hnum] at hi
  exact hend i hi

theorem minimalImage_loads : minimalImage.Loads := ⟨by decide +kernel, minimalImage_accepted⟩

theorem twoSegments_low : twoSegments.Low := by
  have hnum : twoSegments.ehdr.ePhnum.toNat = 2 := by decide +kernel
  have hend : ∀ i < 2, (twoSegments.phdr i).pVaddr.toNat + (twoSegments.phdr i).pMemsz.toNat
      ≤ 2 ^ 38 := by decide +kernel
  intro i hi _
  rw [hnum] at hi
  exact hend i hi

/-- The shell of a kernel that has just booted is replaced by an image of two segments, with bytes
in the file and a page that is zero behind them. -/
theorem exists_exec_builds_image :
    ∃ (s s' : Machine 2) (free : List ℕ),
      taskExec twoSlots twoSegments 0 (twoSlots.taskTrapFrame s.sched.currentTask) s
        = some (twoSegments.ehdr.eEntry, s') ∧
      Executed twoSlots twoSegments s.sched.currentTask free s s' := by
  obtain ⟨c, hboot, -, hat⟩ := exists_booted_twoSlots True
  have hinv : Inv twoSlots True c := hboot.inv
  obtain ⟨free, hspaces⟩ := hat.memOk.spaces
  obtain ⟨hold, hroot⟩ := hat.memOk.privateTree hinv.live hspaces.isFree
  have hloads : twoSegments.Loads := ⟨by decide +kernel, twoSegments_accepted⟩
  obtain ⟨hreturns, hexecuted⟩ := exec_builds_image 0 hold hroot hloads twoSegments_low
  have hpages : (segmentPages twoSegments).length = 3 := by rw [twoSegments_pages]; rfl
  have hlength := hat.small.le_length hat.memOk hspaces.isFree
  rw [twoSlots_card.1, twoSlots_card.2] at hlength
  have hslots : Fintype.card (Holder 2) = 4 := by decide
  obtain ⟨⟨v, s'⟩, hexec⟩ := Option.ne_none_iff_exists'.mp (hreturns (by omega))
  obtain ⟨rfl, hpost⟩ := hexecuted v s' hexec
  exact ⟨c.machine, s', free, hexec, hpost⟩

end RiscvKernel
