import RiscvKernel.System.Turns

/-!
# The clock

The timer of the CLINT under the kernel: time goes on by itself, a user program is interrupted as
soon as `mtime` has come to `mtimecmp`, and the handler sets the next interrupt one `TIMER_FREQ`
later. So a program that never calls the kernel does not keep the others waiting: while a task is
ready to run, the programs that run before it have less than `n` times `TIMER_FREQ` ticks together.

* `TimedStep`: steps of the kernel and of the clock.
* `waiting_time_bounded`: the time that a task waits.
-/

namespace RiscvKernel

open ByteMemory Riscv CyclicScan Simulation

variable {n : ℕ} {L : Layout n} {img : AppImage} {id : Fin n}

/-! ### The timer -/

/-- `TIMER_FREQ`. -/
def timerFreq : Word := 10000000#64

/-- The registers of the CLINT. -/
structure Clint where
  mtime : Word
  mtimecmp : Word

/-- The timer interrupt is pending. -/
def Clint.Pending (t : Clint) : Prop := t.mtimecmp ≤ t.mtime

/-- `timer_load_next`. -/
def timerLoadNext (t : Clint) : Clint :=
  let currentTime := t.mtime
  { t with mtimecmp := currentTime + timerFreq }

/-- The ticks up to the next interrupt. -/
def Clint.left (t : Clint) : ℕ := t.mtimecmp.toNat - t.mtime.toNat

/-- The next interrupt is not further away than `timer_load_next` puts it. -/
def Clint.Set (t : Clint) : Prop := t.left ≤ timerFreq.toNat

/-- The kernel with the clock. -/
structure Timed (n : ℕ) where
  config : Config n
  clint : Clint

/-- What happens in a step. -/
inductive TimedEvent (n : ℕ)
  /-- A tick of the clock. It is one of a user program if such a program is running and no interrupt
  is pending. -/
  | tick (user : Bool)
  | event (e : Event n)

/-- A tick of a user program. -/
def TimedEvent.isUserTick : TimedEvent n → Bool
  | .tick user => user
  | .event _ => false

/-- A timer interrupt. -/
def TimedEvent.isTimer : TimedEvent n → Bool
  | .tick _ => false
  | .event e => e.isTimer

/-- A step of the kernel or of the clock, which does not wrap around. -/
inductive TimedStep (step : Config n → Event n → Config n → Prop) :
    Timed n → TimedEvent n → Timed n → Prop
  | tick {c : Config n} {t : Clint} (user : Bool) (hwrap : t.mtime.toNat + 1 < 2 ^ 64)
    (huser : user = true ↔ c.phase = .user ∧ ¬ t.Pending) :
    TimedStep step ⟨c, t⟩ (.tick user) ⟨c, { t with mtime := t.mtime + 1#64 }⟩
  /-- The timer interrupt, which sets the next one. -/
  | timer {c c' : Config n} {t : Clint} {e : Event n} (hstep : step c e c')
    (htimer : e.isTimer = true) (hpending : t.Pending) :
    TimedStep step ⟨c, t⟩ (.event e) ⟨c', timerLoadNext t⟩
  /-- Anything else. A user program does nothing while an interrupt is pending. -/
  | other {c c' : Config n} {t : Clint} {e : Event n} (hstep : step c e c')
    (htimer : e.isTimer = false) (hpending : c.phase = .user → ¬ t.Pending) :
    TimedStep step ⟨c, t⟩ (.event e) ⟨c', t⟩

variable {step : Config n → Event n → Config n → Prop} {x y : Timed n} {a : TimedEvent n}
  {as : List (TimedEvent n)}

/-- An interrupt that is set `f` ticks ahead is not further away, even if the sum wraps around. -/
theorem left_le_of_add (t : Clint) (f : Word) :
    Clint.left { t with mtimecmp := t.mtime + f } ≤ f.toNat := by
  have hadd : (t.mtime + f).toNat ≤ t.mtime.toNat + f.toNat := by
    rw [BitVec.toNat_add]
    exact Nat.mod_le _ _
  exact Nat.sub_le_of_le_add (hadd.trans_eq (Nat.add_comm _ _))

theorem set_timerLoadNext (t : Clint) : (timerLoadNext t).Set := left_le_of_add t timerFreq

/-- A tick of a user program takes one from the ticks that are left, an interrupt gives new ones,
and nothing else does. -/
theorem TimedStep.left (h : TimedStep step x a y) :
    y.clint.left + (if a.isUserTick then 1 else 0)
      ≤ x.clint.left + if a.isTimer then timerFreq.toNat else 0 := by
  cases h with
  | @tick c t user hwrap huser =>
    -- `mtime` does not wrap around, so the interrupt gets nearer or stays pending
    have htime : (t.mtime + 1#64).toNat = t.mtime.toNat + 1 := by
      rw [BitVec.toNat_add]
      simp only [BitVec.toNat_ofNat]
      omega
    change t.mtimecmp.toNat - (t.mtime + 1#64).toNat + (if user then 1 else 0)
      ≤ t.mtimecmp.toNat - t.mtime.toNat + 0
    rw [htime]
    cases user with
    | false => simp only [Bool.false_eq_true, if_false]; omega
    | true =>
      -- no interrupt is pending, so there is a tick left
      have hpending := (huser.mp rfl).2
      rw [Clint.Pending, BitVec.not_le, BitVec.lt_def] at hpending
      simp only [if_true]
      omega
  | timer hstep htimer =>
    have hset := set_timerLoadNext
    rw [TimedEvent.isTimer, htimer]
    exact (hset _).trans (Nat.le_add_left _ _)
  | other hstep htimer =>
    rw [TimedEvent.isTimer, htimer]
    exact le_rfl

/-- Interrupts are never further away than `timer_load_next` puts them. -/
theorem TimedStep.set (h : TimedStep step x a y) (hx : x.clint.Set) : y.clint.Set := by
  have hleft := h.left
  cases h with
  | tick => exact ((Nat.le_add_right _ _).trans hleft).trans hx
  | timer => exact set_timerLoadNext _
  | other => exact hx

/-- The kernel under the clock keeps what the kernel keeps. -/
theorem TimedStep.keeps {P : Config n → Prop} (h : TimedStep step x a y)
    (hP : ∀ c e c', P c → step c e c' → P c') (hx : P x.config) : P y.config := by
  cases h with
  | tick => exact hx
  | timer hstep => exact hP _ _ _ hx hstep
  | other hstep => exact hP _ _ _ hx hstep

/-! ### Waiting -/

/-- Fewer than `n` timer interrupts are taken while a task waits. -/
theorem timers_lt (hx : Inv L False x.config)
    (hrun : Path (TimedStep (WaitingStep L img id)) x as y) :
    as.countP TimedEvent.isTimer < n := by
  have hkeeps : ∀ (x : Timed n) a y, Inv L False x.config →
      TimedStep (WaitingStep L img id) x a y → Inv L False y.config := fun x a y hx hstep =>
    hstep.keeps (fun c e c' hc hstep => hstep.step.inv hc) hx
  have hcount := hrun.countP_add_le (f := fun x => gap x.config.current id)
    (p := TimedEvent.isTimer) hkeeps ?_ ?_ hx
  · have hgap := gap_lt x.config.current id
    omega
  · intro x a y hx hstep
    cases hstep with
    | tick => exact le_rfl
    | timer hstep => exact hstep.gap_le hx
    | other hstep => exact hstep.gap_le hx
  · intro x a y hx hstep htimer
    cases hstep with
    | tick => cases htimer
    | timer hstep => exact hstep.gap_lt hx htimer
    | other hstep hno => exact hstep.gap_lt hx htimer

/-- As long as a task is ready to run and does not get its turn, the user programs that run before
it have at most `n` times `TIMER_FREQ` ticks together, whether they ever call the kernel or not. The
clock has been set by `timer_init`. -/
theorem waiting_time_bounded [NeZero n] {c₀ : Config n} {t₀ : Clint}
    {as₀ : List (TimedEvent n)} (hboot : Booted L c₀)
    (hreach : Path (TimedStep (SafeStep L img)) ⟨c₀, timerLoadNext t₀⟩ as₀ x)
    (hrun : Path (TimedStep (WaitingStep L img id)) x as y) :
    as.countP TimedEvent.isUserTick ≤ n * timerFreq.toNat := by
  obtain ⟨hx, hset⟩ := hreach.invariant (P := fun x => Inv L False x.config ∧ x.clint.Set)
    (fun x a y hx hstep =>
      ⟨hstep.keeps (fun c e c' hc hstep => hstep.inv hc) hx.1, hstep.set hx.2⟩)
    ⟨hboot.inv, set_timerLoadNext t₀⟩
  have hticks := hrun.countP_add_le_mul (P := fun _ => True) (f := fun x => x.clint.left)
    (p := TimedEvent.isUserTick) (q := TimedEvent.isTimer) (b := timerFreq.toNat)
    (fun _ _ _ _ _ => trivial) (fun x a y _ hstep => hstep.left) trivial
  have htimers := timers_lt hx hrun
  -- what is left of one interval, and less than `n` new ones
  calc as.countP TimedEvent.isUserTick
      ≤ x.clint.left + timerFreq.toNat * as.countP TimedEvent.isTimer := by omega
    _ ≤ timerFreq.toNat + timerFreq.toNat * as.countP TimedEvent.isTimer :=
      Nat.add_le_add_right hset _
    _ = timerFreq.toNat * (as.countP TimedEvent.isTimer + 1) := by
      rw [Nat.mul_add, Nat.mul_one, Nat.add_comm]
    _ ≤ timerFreq.toNat * n := Nat.mul_le_mul_left _ htimers
    _ = n * timerFreq.toNat := Nat.mul_comm _ _

/-- A child waits while its parent, whose `clone` was the first system call, computes for a tick. -/
theorem exists_waiting_time_bounded : ∃ (c₀ : Config 2) (t₀ : Clint) (x y : Timed 2)
    (as₀ as : List (TimedEvent 2)), Booted twoSlots c₀ ∧
      Path (TimedStep (SafeStep twoSlots minimalImage)) ⟨c₀, timerLoadNext t₀⟩ as₀ x ∧
      Path (TimedStep (WaitingStep twoSlots minimalImage 1)) x as y ∧
      0 < as.countP TimedEvent.isUserTick ∧
      as.countP TimedEvent.isUserTick ≤ 2 * timerFreq.toNat := by
  obtain ⟨c₀, hboot, huser₀, hat₀⟩ := exists_booted_twoSlots True
  obtain ⟨c, hcompute, huser, hmachine⟩ :=
    exists_compute (L := twoSlots) minimalImage huser₀ fun _ => 220#64
  have hat : AtBoot twoSlots True c.machine := by
    rw [hmachine]
    exact { hat₀ with memOk := ⟨hat₀.memOk.spaces, hat₀.memOk.satp⟩ }
  have hc : Inv twoSlots True c :=
    (hcompute.advanced hboot.inv (fun _ => minimalImage_slots) noRead_compute.safeRead).inv
  have hcall : (.trapHandler : Service 2).call 8#64 c.machine.hart = some .clone :=
    call_of_reg (by rw [hmachine]) (by decide)
  have hsmall := hat.small
  rw [twoSlots_card.2] at hsmall
  have hslot : allocTaskSlot c.machine.sched.taskStates = some 1 := by
    rw [hat.sched]
    decide
  have hroom : 133 + (Fintype.card (Holder 2) + 1) * 48 ≤ twoSlots.managed.card := by
    rw [twoSlots_card.1]
    decide
  obtain ⟨s, c₁, -, hclone, huser₁, -⟩ :=
    exists_clone_step hc huser minimalImage 8#64 0 0 hcall hslot hsmall hroom
  -- the clock has just been set, so no interrupt is pending
  let t : Clint := timerLoadNext ⟨0, 0⟩
  have hpending : ¬ t.Pending := by
    rw [Clint.Pending, BitVec.not_le]
    decide +kernel
  have hno : NoRead c (.trap .trapHandler 8#64 0 0) := noRead_of_call (by simp [hcall])
  have hreach : Path (TimedStep (SafeStep twoSlots minimalImage)) ⟨c₀, t⟩ _ ⟨c₁, t⟩ :=
    .cons (.other ⟨noRead_compute.safeRead, hcompute⟩ rfl fun _ => hpending)
      (.single (.other ⟨hno.safeRead, hclone⟩ rfl fun _ => hpending))
  have hrun : Path (TimedStep (WaitingStep twoSlots minimalImage 1)) ⟨c₁, t⟩ [.tick true] _ :=
    .single (.tick true (by decide +kernel) ⟨fun _ => ⟨huser₁, hpending⟩, fun _ => rfl⟩)
  exact ⟨c₀, ⟨0, 0⟩, _, _, _, _, hboot, hreach, hrun, Nat.one_pos,
    waiting_time_bounded hboot hreach hrun⟩

end RiscvKernel
