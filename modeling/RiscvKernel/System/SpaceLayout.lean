import RiscvKernel.System.Refinement

/-!
# The layout of the address spaces

A process cannot change what it may do at an address: it does what the first program may, or what
the headers of the image allow. Only a read that stores its character in a page table can change
that, so the results are about the states that are reached without such reads (`NoRead`).

* `World.Spaces.next`: what an action can make of the address spaces.
* `layout_kept`: in all these states each page table maps exactly the pages of the first program or
  exactly those of the image, with their rights.
* `guard_unmapped`, `write_xor_execute`: what follows for all processes.
-/

namespace RiscvKernel

open ByteMemory RadixTable Riscv Simulation

variable {n : ℕ} {L : Layout n} {img : AppImage} {w w' : World n} {id : Fin n} {a : Action n}
  {p : Process} {space space' : Space} {cause : Word} {service : Service n} {S : Space → Prop}

/-! ### Actions -/

namespace World

/-- All address spaces satisfy `S`. -/
def Spaces (S : Space → Prop) (w : World n) : Prop := ∀ id p, w.proc id = some p → S p.space

theorem Spaces.set (h : w.Spaces S) {r : Option Process} (hr : ∀ p, r = some p → S p.space) :
    (w.set id r).Spaces S := by
  intro j p hp
  rw [set_proc, Function.update_apply] at hp
  split_ifs at hp
  · exact hr p hp
  · exact h j p hp

/-- An action keeps what stores keep of the address spaces, if it is so of a program that starts. -/
theorem Spaces.next (h : w.Spaces S)
    (hstore : ∀ {space va b space'}, S space → space.store va b = some space' → S space')
    (hexec : img.Loads → S (imageSpace img)) (hw : w.next img a = some w') : w'.Spaces S := by
  obtain ⟨p, hproc, hcases⟩ := next_cases hw
  have hp := h _ p hproc
  have hbecome : ∀ q : Process, S q.space → (w.become q).Spaces S := by
    intro q hq
    refine h.set fun r hr => ?_
    obtain rfl := Option.some.inj hr
    exact hq
  have hskip : (w.become p.skip).Spaces S := hbecome p.skip hp
  rcases hcases with ⟨q, hq, rfl⟩ | rfl | ⟨id, q, hq, rfl⟩ | ⟨q, hq, hyield⟩
  · -- the process goes on in its address space, after a store, or in that of the image
    rcases hq.space with hspace | ⟨va, b, hspace⟩ | ⟨hloads, hspace⟩
    · exact hbecome q (hspace ▸ hp)
    · exact hbecome q (hstore hp hspace)
    · exact hbecome q (hspace ▸ hexec hloads)
  · rw [clone]
    cases w.vacant with
    | none => exact hbecome (p.answer (-1)) hp
    | some d =>
      -- the copy has an address space that is equal
      refine Spaces.set (hbecome (p.answer (BitVec.ofNat 64 d)) hp) fun r hr => ?_
      obtain rfl := Option.some.inj hr
      exact hp
  · refine hskip.set fun r hr => ?_
    obtain rfl := Option.some.inj hr
    exact hskip id q hq
  · obtain ⟨hproc', -⟩ := yield_eq_some hyield
    have hset : (w.set w.current q).Spaces S := h.set fun r hr => hq r hr ▸ hp
    intro j r hr
    exact hset j r (hproc' ▸ hr)

end World

/-! ### Rights -/

namespace Space

/-- What a process may do at an address. -/
def rightsAt (space : Space) (x : BitVec 39) : Option Rights := (space x).map Cell.rights

/-- The address space allows what that of the first program does, or what that of the image does. -/
def Laid (L : Layout n) (img : AppImage) (space : Space) : Prop :=
  (∃ kernel, space.rightsAt = rightsAt (bootSpace L kernel)) ∨
    (img.Loads ∧ space.rightsAt = rightsAt (imageSpace img))

/-- Nothing is at an address where the same rights leave nothing. -/
theorem eq_none_of_rightsAt {x : BitVec 39} (h : space.rightsAt = space'.rightsAt)
    (hnone : space' x = none) : space x = none := by
  have hx := congrFun h x
  rwa [rightsAt, rightsAt, hnone, Option.map_none, Option.map_eq_none_iff] at hx

/-- A store changes no rights. -/
theorem rightsAt_store {va : Word} {b : Byte} (h : space.store va b = some space') :
    space'.rightsAt = space.rightsAt := by
  rw [store, Option.bind_eq_some_iff] at h
  obtain ⟨cell, hcell, h⟩ := h
  split_ifs at h
  obtain rfl := Option.some.inj h
  funext x
  rw [rightsAt, rightsAt]
  by_cases hx : x = spaceAddr va
  · rw [hx, Function.update_self, hcell]
    rfl
  · rw [Function.update_of_ne hx]

theorem Laid.store {va : Word} {b : Byte} (h : space.Laid L img)
    (hstore : space.store va b = some space') : space'.Laid L img := by
  rw [Laid, rightsAt_store hstore]
  exact h

/-- The rights of the first program do not depend on what is in its pages. -/
theorem rightsAt_bootSpace (L : Layout n) (kernel kernel' : Mem) :
    rightsAt (bootSpace L kernel) = rightsAt (bootSpace L kernel') := by
  funext x
  rw [rightsAt, rightsAt, bootSpace, bootSpace]
  split_ifs <;> rfl

/-- The first program may write to no code. -/
theorem bootSpace_rightsAt {kernel : Mem} {x : BitVec 39} {r : Rights}
    (h : rightsAt (bootSpace L kernel) x = some r) : (r.write && r.exec) = false := by
  rw [rightsAt, bootSpace] at h
  split_ifs at h <;> cases h <;> rfl

/-- An image may write to code only if a header says so. -/
theorem imageSpace_rightsAt {x : BitVec 39} {r : Rights}
    (h : rightsAt (imageSpace img) x = some r) : r = ⟨true, true, false⟩ ∨
      ∃ i < img.ehdr.ePhnum.toNat, (img.phdr i).IsLoad ∧ r = (img.phdr i).rights := by
  rw [rightsAt, imageSpace] at h
  split_ifs at h with hstack
  · exact Or.inl (Option.some.inj h).symm
  · rw [Option.map_map, Option.map_eq_some_iff] at h
    obtain ⟨ph, hph, rfl⟩ := h
    obtain ⟨i, hi, rfl, hload, -⟩ := AppImage.segmentAt_eq_some hph
    exact Or.inr ⟨i, hi, hload, rfl⟩

/-- Nothing is mapped below the stack page. -/
theorem Laid.guard {va : Word} (h : space.Laid L img) (hva : pageVa va = userStackGuardVa) :
    space (spaceAddr va) = none := by
  have hpage := pageVa_toNat va
  have hguard : userStackGuardVa.toNat = 0x400fe000 := rfl
  have hlow : textStart = 0x80000000 := rfl
  have htext := L.text_le
  rw [hva, hguard] at hpage
  have hsame : (spaceAddr va).setWidth 64 = va := by
    apply BitVec.eq_of_toNat_eq
    rw [BitVec.toNat_setWidth, toNat_spaceAddr]
    omega
  have hnotStack : ¬ InStackPage va := by
    rw [inStackPage_iff, hva]
    decide
  rcases h with ⟨kernel, hrights⟩ | ⟨hloads, hrights⟩
  · have hnone : bootSpace L kernel (spaceAddr va) = none := by
      have hother : ¬ (pageVa va = userRwPageVa) ∧ ¬ (pageVa va = userRoPageVa) := by
        rw [hva]
        decide
      rw [bootSpace, hsame, if_neg (by omega), if_neg (by omega),
        if_neg (not_or.mpr ⟨hnotStack, hother.1⟩), if_neg hother.2]
    exact eq_none_of_rightsAt hrights hnone
  · have hnone : imageSpace img (spaceAddr va) = none := by
      rw [imageSpace, hsame, if_neg hnotStack, Option.map_eq_none_iff]
      by_contra hne
      obtain ⟨ph, hph⟩ := Option.ne_none_iff_exists'.mp hne
      obtain ⟨i, hi, rfl, hload, hin⟩ := AppImage.segmentAt_eq_some hph
      -- the validator keeps segments off the guard page
      have hoff := ((accepted_of_ok hloads.2).segment i hi hload).page_not_stack hin.pageVa_mem
      rw [hva] at hoff
      exact absurd hoff (by decide)
    exact eq_none_of_rightsAt hrights hnone

/-- Every process may write to its stack page. -/
theorem Laid.stack (h : space.Laid L img) :
    space.rightsAt (spaceAddr userStackPageVa) = some ⟨true, true, false⟩ := by
  have hsame : (spaceAddr userStackPageVa).setWidth 64 = userStackPageVa := by decide
  have hin : InStackPage userStackPageVa := by decide
  rcases h with ⟨kernel, hrights⟩ | ⟨-, hrights⟩
  · -- the text and the read-only data are above it
    have hbelow : userStackPageVa.toNat < textStart := by decide
    have htext := L.text_le
    rw [hrights, rightsAt, bootSpace, hsame, if_neg (by omega), if_neg (by omega),
      if_pos (Or.inl hin), Option.map_some]
  · rw [hrights, rightsAt, imageSpace, hsame, if_pos hin, Option.map_some]

/-- If no header asks for code that can be written to, there is none. -/
theorem Laid.not_write_exec {x : BitVec 39} {cell : Cell} (h : space.Laid L img)
    (himage : ∀ i < img.ehdr.ePhnum.toNat, (img.phdr i).IsLoad →
      ((img.phdr i).rights.write && (img.phdr i).rights.exec) = false)
    (hcell : space x = some cell) : (cell.rights.write && cell.rights.exec) = false := by
  have hat : space.rightsAt x = some cell.rights := by rw [rightsAt, hcell, Option.map_some]
  rcases h with ⟨kernel, hrights⟩ | ⟨-, hrights⟩
  · rw [hrights] at hat
    exact bootSpace_rightsAt hat
  · rw [hrights] at hat
    rcases imageSpace_rightsAt hat with heq | ⟨i, hi, hload, heq⟩
    · rw [heq]
      rfl
    · rw [heq]
      exact himage i hi hload

end Space

/-! ### Reachable states -/

variable {c : Config n} {va e : Word}

/-- As long as no read stores a character, all address spaces are laid out alike. -/
theorem laid_of_reachable [NeZero n] (hlow : img.Loads → img.Low) (h : Reachable L img NoRead c)
    (hlive : c.machine.Live id) : (userSpace L c.machine id).Laid L img := by
  have hspaces : (c.world L).Spaces (Space.Laid L img) := by
    refine h.world hlow (fun m j p hp => ?_) fun w a w' hw hnext =>
      hw.next Space.Laid.store (fun hloads => Or.inr ⟨hloads, rfl⟩) hnext
    rw [World.boot_proc, Function.update_apply] at hp
    split_ifs at hp
    obtain rfl := Option.some.inj hp
    exact Or.inl ⟨m, rfl⟩
  exact hspaces id _ (world_proc_of_live hlive)

/-- The page table of a task maps the pages of an address space with their rights. -/
def Allows (L : Layout n) (c : Config n) (id : Fin n) (space : Space) : Prop :=
  ∀ va, (leafEntry c.machine.mem (taskPageTable L c.machine.mem id) va).map entryRights
    = space.rightsAt (spaceAddr va)

/-- The rights of a process are those of the entries of its page table. -/
theorem rightsAt_userSpace (L : Layout n) (s : Machine n) (id : Fin n) (va : Word) :
    (userSpace L s id).rightsAt (spaceAddr va)
      = (leafEntry s.mem (taskPageTable L s.mem id) va).map entryRights := by
  rw [Space.rightsAt, userSpace, tableSpace_spaceAddr, cellAt, Option.map_map]
  rfl

theorem allows_iff :
    Allows L c id space ↔ (userSpace L c.machine id).rightsAt = space.rightsAt := by
  simp only [Allows, ← rightsAt_userSpace]
  refine ⟨fun h => funext fun x => ?_, fun h va => by rw [h]⟩
  have hx : spaceAddr (x.setWidth 64) = x := by
    rw [spaceAddr, BitVec.setWidth_setWidth_of_le _ (by decide), BitVec.setWidth_eq]
  rw [← hx, h]

/-- As long as no read stores a character, the page table of a task maps exactly the pages of the
first program, or exactly those of the image, with the rights that these have. -/
theorem layout_kept [NeZero n] (hlow : img.Loads → img.Low) (h : Reachable L img NoRead c)
    (hlive : c.machine.Live id) :
    Allows L c id (bootSpace L c.machine.mem) ∨ (img.Loads ∧ Allows L c id (imageSpace img)) := by
  rcases laid_of_reachable hlow h hlive with ⟨kernel, heq⟩ | ⟨hloads, heq⟩
  · exact Or.inl (allows_iff.mpr (heq.trans (Space.rightsAt_bootSpace L kernel _)))
  · exact Or.inr ⟨hloads, allows_iff.mpr heq⟩

/-- The first task has replaced its program. -/
theorem exists_layout_kept : ∃ c c' : Config 2, Reachable twoSlots minimalImage NoRead c ∧
    (.trapHandler : Service 2).call 8#64 c.machine.hart = some .execve ∧
    Step twoSlots minimalImage c (.trap .trapHandler 8#64 0 0) c' ∧ c'.machine.Live c'.current ∧
    (Allows twoSlots c' c'.current (bootSpace twoSlots c'.machine.mem) ∨
      (minimalImage.Loads ∧ Allows twoSlots c' c'.current (imageSpace minimalImage))) := by
  obtain ⟨c, c', hreach, -, hcall, hstep, -⟩ := exists_execed
  have hreach' := hreach.step (noRead_of_call (by simp [hcall])) hstep
  have hc' : Inv twoSlots False c' := hreach'.inv False.elim fun _ _ hno => hno.safeRead
  exact ⟨c, c', hreach, hcall, hstep, hc'.live,
    layout_kept (fun _ => minimalImage_low) hreach' hc'.live⟩

/-- As long as no read stores a character, no task has the page below its stack page. -/
theorem guard_unmapped [NeZero n] (hlow : img.Loads → img.Low) (h : Reachable L img NoRead c)
    (hlive : c.machine.Live id) (hva : pageVa va = userStackGuardVa) :
    leafEntry c.machine.mem (taskPageTable L c.machine.mem id) va = none := by
  have hnone := (laid_of_reachable hlow h hlive).guard hva
  rw [userSpace, tableSpace_spaceAddr, cellAt, Option.map_eq_none_iff] at hnone
  exact hnone

/-- The stack of a program that has been loaded does not grow into another page. -/
theorem exists_guard_unmapped : ∃ (c c' : Config 2) (va : Word),
    Reachable twoSlots minimalImage NoRead c ∧
      (.trapHandler : Service 2).call 8#64 c.machine.hart = some .execve ∧
      Step twoSlots minimalImage c (.trap .trapHandler 8#64 0 0) c' ∧
      pageVa va = userStackGuardVa ∧
      leafEntry c'.machine.mem (taskPageTable twoSlots c'.machine.mem c'.current) va = none := by
  obtain ⟨c, c', hreach, -, hcall, hstep, -⟩ := exists_execed
  have hreach' := hreach.step (noRead_of_call (by simp [hcall])) hstep
  have hc' : Inv twoSlots False c' := hreach'.inv False.elim fun _ _ hno => hno.safeRead
  have hva : pageVa (userStackPageVa - 8#64) = userStackGuardVa := by decide
  exact ⟨c, c', userStackPageVa - 8#64, hreach, hcall, hstep, hva,
    guard_unmapped (fun _ => minimalImage_low) hreach' hc'.live hva⟩

/-- As long as no read stores a character, no task may write to what it may execute, if no header of
the image asks for that. -/
theorem write_xor_execute [NeZero n] (hlow : img.Loads → img.Low)
    (himage : ∀ i < img.ehdr.ePhnum.toNat, (img.phdr i).IsLoad →
      ((img.phdr i).rights.write && (img.phdr i).rights.exec) = false)
    (h : Reachable L img NoRead c) (hlive : c.machine.Live id)
    (he : leafEntry c.machine.mem (taskPageTable L c.machine.mem id) va = some e) :
    ((entryRights e).write && (entryRights e).exec) = false := by
  have hcell : userSpace L c.machine id (spaceAddr va)
      = some ⟨entryRights e, c.machine.mem (physAddr e va)⟩ := by
    rw [userSpace, tableSpace_spaceAddr, cellAt, he, Option.map_some]
  exact (laid_of_reachable hlow h hlive).not_write_exec himage hcell

/-- The stack page of a program that has been loaded. -/
theorem exists_write_xor_execute : ∃ (c c' : Config 2) (e : Word),
    Reachable twoSlots minimalImage NoRead c ∧
      (.trapHandler : Service 2).call 8#64 c.machine.hart = some .execve ∧
      Step twoSlots minimalImage c (.trap .trapHandler 8#64 0 0) c' ∧
      leafEntry c'.machine.mem (taskPageTable twoSlots c'.machine.mem c'.current) userStackPageVa
        = some e ∧ ((entryRights e).write && (entryRights e).exec) = false := by
  obtain ⟨c, c', hreach, -, hcall, hstep, -⟩ := exists_execed
  have hreach' := hreach.step (noRead_of_call (by simp [hcall])) hstep
  have hc' : Inv twoSlots False c' := hreach'.inv False.elim fun _ _ hno => hno.safeRead
  obtain ⟨e, he, -⟩ : ∃ e, leafEntry c'.machine.mem
      (taskPageTable twoSlots c'.machine.mem c'.current) userStackPageVa = some e ∧
      entryRights e = ⟨true, true, false⟩ := by
    have hstack := (laid_of_reachable (fun _ => minimalImage_low) hreach' hc'.live).stack
    rw [rightsAt_userSpace] at hstack
    exact Option.map_eq_some_iff.mp hstack
  have hnum : minimalImage.ehdr.ePhnum.toNat = 1 := by decide +kernel
  have hheader : ∀ i < 1, ((minimalImage.phdr i).rights.write && (minimalImage.phdr i).rights.exec)
      = false := by decide +kernel
  refine ⟨c, c', e, hreach, hcall, hstep, he,
    write_xor_execute (fun _ => minimalImage_low) (fun i hi _ => ?_) hreach' hc'.live he⟩
  rw [hnum] at hi
  exact hheader i hi

end RiscvKernel
