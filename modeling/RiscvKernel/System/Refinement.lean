import RiscvKernel.Lib.Simulation
import RiscvKernel.System.ProcessCall

/-!
# The kernel refines the world of processes

Every run of the kernel from boot, in which no read stores a character, is a run of the world of
processes on the actions of its events: a step on the kernel's page tables, trapframes, contexts and
stacks does to the processes that they stand for what the action says. An image that is loaded has
to end in the lower half of the Sv39 addresses, as the addresses of the upper half are others for
the hardware than for the validator.

* `kernel_simulates`: the simulation.
* `world_of_booted`: the kernel boots into the world with one process.
* `run_refines`: the refinement.
* `run_determined`: what the processes see of such a run are their actions alone, whatever was in
  memory before boot, and whatever C code leaves in registers and on stacks.
-/

namespace RiscvKernel

open ByteMemory RadixTable Riscv Simulation

variable {n : ℕ}

/-- What an event does to the processes; nothing if it only goes on after a switch. -/
def Event.action : Event n → Option (Action n)
  | .compute reg pc => some (.compute reg pc)
  | .store va b => some (.store va b)
  | .trap service cause _ _ => some (.trap service cause)
  | .resume => none

/-- The steps in which no read stores a character. -/
def KernelStep (L : Layout n) (img : AppImage) (c : Config n) (e : Event n) (c' : Config n) :
    Prop :=
  NoRead c e ∧ Step L img c e c'

/-- The system has just been booted, on a machine with the memory `m`. -/
def BootedOn [NeZero n] (L : Layout n) (m : Mem) (c : Config n) : Prop :=
  ∃ h, osMain L h m = some c.machine ∧ c.phase = .user ∧ c.suspended = fun _ => none

variable {L : Layout n} {img : AppImage} {fits : Prop} {c c' c₀ c₀' : Config n}
  {es es' : List (Event n)} {m m' : Mem}

/-! ### Boot -/

theorem booted_iff [NeZero n] : Booted L c ↔ ∃ m, BootedOn L m c := by
  constructor
  · rintro ⟨h, m, hboot⟩
    exact ⟨m, h, hboot⟩
  · rintro ⟨m, h, hboot⟩
    exact ⟨h, m, hboot⟩

theorem BootedOn.booted [NeZero n] (h : BootedOn L m c) : Booted L c := booted_iff.mpr ⟨m, h⟩

theorem BootedOn.firstTask [NeZero n] (h : BootedOn L m c) : FirstTask L m c.machine := by
  obtain ⟨hart, hmain, -⟩ := h
  exact ((osMain_spec L False hart m).post_of_eq_some hmain).2

/-- The address space of the first program depends on the kernel alone. -/
theorem bootSpace_congr (h : ∀ a, textStart ≤ a → a < L.rodataEnd → m' a = m a) :
    bootSpace L m' = bootSpace L m := by
  have hrodata := L.rodata_le
  have htext := L.text_le
  funext a
  rw [bootSpace, bootSpace]
  split_ifs with h₁ h₂
  · rw [h _ h₁.1 (by omega)]
  · rw [h _ (by omega) h₂.2]
  · rfl
  · rfl
  · rfl

/-- The kernel boots into the world with one process, which runs in the text of the kernel. -/
theorem world_of_booted [NeZero n] (h : BootedOn L m c) : c.world L = World.boot L m := by
  have hfirst := h.firstTask
  have hat : AtBoot L False c.machine := h.booted.atBoot
  have hc : Inv L False c := h.booted.inv
  obtain ⟨-, -, huser, -⟩ := h
  have hcurrent : c.current = 0 := by rw [Config.current, hat.sched]
  -- the page table of the first task was made of the kernel as it is in memory
  have hproc : c.process L 0 = .start L.taskShell (bootSpace L m) := by
    rw [← hcurrent, hc.process_current huser]
    refine Process.ext (funext hfirst.reg) hfirst.pc ?_ rfl
    rw [userSpace, hcurrent, bootSpace_of_bootMapped hfirst.mapped, bootSpace_congr hfirst.text,
      Process.start]
  refine World.ext hcurrent (funext fun id => ?_)
  -- all other slots are empty
  by_cases hid : id = 0
  · rw [hid, world_proc_of_live (hcurrent ▸ hc.live), hproc]
    rw [World.boot_proc, Function.update_self]
  · rw [world_proc_of_not_live fun hlive => hid (hat.eq_zero_of_live hlive)]
    rw [World.boot_proc, Function.update_of_ne hid]

/-! ### Runs -/

/-- Each step is the action of its event. -/
theorem kernel_simulates (hfits : fits → img.Fits) (hlow : img.Loads → img.Low) :
    Simulates (KernelStep L img) (World.next img) Event.action (Inv L fits) (Config.world L) where
  keeps := by
    rintro c e c' hc ⟨hno, hstep⟩
    exact (hstep.advanced_noRead hc hfits hno).inv
  hidden := by
    rintro c e c' hc ⟨-, hstep⟩ hlabel
    cases e with
    | resume => exact hstep.world_resume hc hfits
    | compute | store | trap => cases hlabel
  visible := by
    rintro c e c' a hc ⟨hno, hstep⟩ hlabel
    cases e with
    | resume => cases hlabel
    | compute reg pc =>
      obtain rfl := Option.some.inj hlabel
      exact hstep.world_compute hc hfits
    | store va b =>
      obtain rfl := Option.some.inj hlabel
      exact hstep.world_store hc hfits
    | trap service cause tval ch =>
      obtain rfl := Option.some.inj hlabel
      exact hstep.world_trap hc hfits hlow hno

/-- The simulation, for any image. -/
theorem kernel_simulates_noFits (hlow : img.Loads → img.Low) :
    Simulates (KernelStep L img) (World.next img) Event.action (Inv L False) (Config.world L) :=
  kernel_simulates False.elim hlow

/-- A reachable state is at the end of a run from boot. -/
theorem Reachable.exists_path [NeZero n] (h : Reachable L img NoRead c) :
    ∃ m c₀ es, BootedOn L m c₀ ∧ Path (KernelStep L img) c₀ es c := by
  obtain ⟨c₀, hboot, hrun⟩ := h
  obtain ⟨m, hboot⟩ := booted_iff.mp hboot
  obtain ⟨es, hpath⟩ := Path.exists_iff_reflTransGen.mpr hrun
  exact ⟨m, c₀, es, hboot, hpath⟩

/-- Every run of the kernel in which no read stores a character is a run of the world of
processes. -/
theorem run_refines [NeZero n] (hlow : img.Loads → img.Low) (hboot : BootedOn L m c₀)
    (hrun : Path (KernelStep L img) c₀ es c) :
    play (World.next img) (World.boot L m) (es.filterMap Event.action) = some (c.world L) := by
  rw [← world_of_booted hboot]
  exact (kernel_simulates_noFits hlow).path hboot.booted.inv hrun

/-- The kernel boots, and its first task clones itself. -/
theorem exists_run_refines : ∃ (m : Mem) (c₀ c : Config 2) (es : List (Event 2)),
    BootedOn twoSlots m c₀ ∧ Path (KernelStep twoSlots minimalImage) c₀ es c ∧
      .trap .trapHandler 8#64 0 0 ∈ es ∧
      play (World.next minimalImage) (World.boot twoSlots m) (es.filterMap Event.action)
        = some (c.world twoSlots) := by
  obtain ⟨c, c₁, s, hreach, -, -, -, -, hcall, -, hstep, -⟩ := exists_cloned
  obtain ⟨m, c₀, es, hboot, hpath⟩ := hreach.exists_path
  have hlast : KernelStep twoSlots minimalImage c (.trap .trapHandler 8#64 0 0) c₁ :=
    ⟨noRead_of_call (by simp [hcall]), hstep⟩
  have hrun := hpath.append (.single hlast)
  have hlow : minimalImage.Loads → minimalImage.Low := fun _ => minimalImage_low
  exact ⟨m, c₀, c₁, _, hboot, hrun, by simp, run_refines hlow hboot hrun⟩

/-- What actions keep of the worlds that can be booted holds of every state that such runs reach. -/
theorem Reachable.world [NeZero n] {P : World n → Prop} (h : Reachable L img NoRead c)
    (hlow : img.Loads → img.Low) (hboot : ∀ m, P (World.boot L m))
    (hnext : ∀ w a w', P w → w.next img a = some w' → P w') : P (c.world L) := by
  obtain ⟨m, c₀, es, hbooted, hpath⟩ := h.exists_path
  refine (kernel_simulates_noFits hlow).safe hnext hbooted.booted.inv ?_ hpath
  rw [world_of_booted hbooted]
  exact hboot m

/-- Two such runs with the same actions, on machines with the same kernel, end in the same
processes. -/
theorem run_determined [NeZero n] (hlow : img.Loads → img.Low) (hboot : BootedOn L m c₀)
    (hboot' : BootedOn L m' c₀')
    (hkernel : ∀ a, textStart ≤ a → a < L.rodataEnd → m' a = m a)
    (hrun : Path (KernelStep L img) c₀ es c) (hrun' : Path (KernelStep L img) c₀' es' c')
    (hactions : es'.filterMap Event.action = es.filterMap Event.action) :
    c'.world L = c.world L := by
  refine (kernel_simulates_noFits hlow).abs_eq hboot'.booted.inv hboot.booted.inv hrun' hrun ?_
    hactions
  rw [world_of_booted hboot, world_of_booted hboot', World.boot, World.boot,
    bootSpace_congr hkernel]

/-- With anything in its memory, the kernel boots, and its first task computes. -/
theorem exists_run (m : Mem) (reg : Reg → Word) (pc : Word) : ∃ c₀ c : Config 2,
    BootedOn twoSlots m c₀ ∧ Path (KernelStep twoSlots minimalImage) c₀ [.compute reg pc] c := by
  obtain ⟨hcard, hpages⟩ := twoSlots_card
  have hart : Hart := ⟨fun _ => 0, fun _ => 0, 0, .machine⟩
  obtain ⟨s, hs, -⟩ := (osMain_spec twoSlots True hart m).exists_of_not_stuck (by omega)
  exact ⟨⟨s, .user, fun _ => none⟩, _, ⟨hart, hs, rfl, rfl⟩,
    .single ⟨noRead_compute, .compute rfl reg pc⟩⟩

/-- The memory outside the kernel is not seen. -/
theorem exists_run_determined : ∃ (m m' : Mem) (c c' : Config 2),
    (∃ c₀, BootedOn twoSlots m c₀ ∧
      Path (KernelStep twoSlots minimalImage) c₀ [.compute (fun _ => 1) 4] c) ∧
    (∃ c₀', BootedOn twoSlots m' c₀' ∧
      Path (KernelStep twoSlots minimalImage) c₀' [.compute (fun _ => 1) 4] c') ∧
    m ≠ m' ∧ c'.world twoSlots = c.world twoSlots := by
  obtain ⟨c₀, c, hboot, hrun⟩ := exists_run (fun _ => 0) (fun _ => 1) 4
  obtain ⟨c₀', c', hboot', hrun'⟩ := exists_run (storeByte (fun _ => 0) 0 1) (fun _ => 1) 4
  refine ⟨_, _, c, c', ⟨c₀, hboot, hrun⟩, ⟨c₀', hboot', hrun'⟩, fun hsame => ?_,
    run_determined (fun _ => minimalImage_low) hboot hboot' (fun a hlo _ => ?_) hrun hrun' rfl⟩
  · have hbyte := congrFun hsame 0
    rw [storeByte_same] at hbyte
    exact absurd hbyte (by decide)
  · refine storeByte_of_ne _ _ ?_
    have hlow : textStart = 0x80000000 := rfl
    omega

end RiscvKernel
