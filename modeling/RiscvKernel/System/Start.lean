import RiscvKernel.Lib.Harts
import RiscvKernel.System.Refinement

/-!
# The start of the kernel

`boot.S`: all harts begin at `_start` at the same time. One of them clears the `.bss` section and
calls `os_main` on the boot stack; the others wait in `park`.

* `Booting`: where the chosen hart is and how many instructions it still has to execute.
* `start_calls_osMain`: what holds after any interleaving of the harts.
* `kernel_image_kept`: from then on, the code and the constants of the kernel stay as they are.
-/

namespace RiscvKernel

open ByteMemory Riscv

variable {n : ℕ} {L : Layout n}

/-! ### The code -/

/-- The addresses of the `.bss` section, which ends at `kernel_end`. -/
structure BssLayout (L : Layout n) where
  /-- `bss_start`. -/
  bssStart : ℕ
  /-- `stacks`, the boot stack. -/
  bootStacks : ℕ
  bssStart_aligned : PageAligned bssStart
  rodataEnd_le : L.rodataEnd ≤ bssStart
  tasks_ge : bssStart ≤ L.tasks
  taskKernelStacks_ge : bssStart ≤ L.taskKernelStacks
  bootStacks_ge : bssStart ≤ bootStacks
  bootStacks_le : bootStacks + 4096 ≤ L.kernelEnd

/-- The number of `park` in the code. -/
def park : ℕ := 13

/-- The number that stands for `os_main`, which is outside the code. -/
def osMainIndex : ℕ := 15

/-- `_start`. -/
def start (B : BssLayout L) : List Op :=
  [.hartId .t0,
    .bnez .t0 park,
    .instr (.li .a0 (BitVec.ofNat 64 B.bssStart)),
    .instr (.li .a1 (BitVec.ofNat 64 L.kernelEnd)),
    .bgeu .a0 .a1 8,
    -- 1: the loop that clears `.bss`
    .sdZero .a0,
    .instr (.addi .a0 .a0 8#64),
    .bltu .a0 .a1 5,
    -- 2: the stack
    .instr (.li .sp (BitVec.ofNat 64 B.bootStacks)),
    .instr (.li .t0 4096#64),
    .add .sp .sp .t0,
    .call osMainIndex,
    .j park,
    -- `park`
    .wfi,
    .j park]

/-! ### The chosen hart -/

namespace BssLayout

/-- The number of words of `.bss`. -/
def words (B : BssLayout L) : ℕ := (L.kernelEnd - B.bssStart) / 8

/-- Everything in `.bss` below the address `a` is zero. -/
def ClearedTo (B : BssLayout L) (m : Mem) (a : ℕ) : Prop := ∀ x, B.bssStart ≤ x → x < a → m x = 0

/-- `.bss` is cleared up to `a0`, and there are `w` words up to its end in `a1`. -/
structure Clearing (B : BssLayout L) (h : Hart) (m : Mem) (w : ℕ) : Prop where
  a0 : (h.reg .a0).toNat + 8 * w = L.kernelEnd
  a1 : (h.reg .a1).toNat = L.kernelEnd
  ge : B.bssStart ≤ (h.reg .a0).toNat
  cleared : B.ClearedTo m (h.reg .a0).toNat

/-- Bytes of `.bss` may have become zero, and nothing else has changed. -/
def Wiped (B : BssLayout L) (m m' : Mem) : Prop :=
  ∀ x, m' x = m x ∨ (B.bssStart ≤ x ∧ x < L.kernelEnd ∧ m' x = 0)

end BssLayout

/-- The chosen hart has `left` instructions to execute up to the call of `os_main`. -/
inductive Booting (B : BssLayout L) : ℕ → Core → Mem → Prop
  | entry {h : Hart} {m : Mem} : Booting B (3 * B.words + 9) ⟨h, 0⟩ m
  | named {h : Hart} {m : Mem} (ht0 : h.reg .t0 = 0#64) : Booting B (3 * B.words + 8) ⟨h, 1⟩ m
  | chosen {h : Hart} {m : Mem} : Booting B (3 * B.words + 7) ⟨h, 2⟩ m
  | bssStart {h : Hart} {m : Mem} (ha0 : (h.reg .a0).toNat = B.bssStart) :
    Booting B (3 * B.words + 6) ⟨h, 3⟩ m
  | bssEnd {h : Hart} {m : Mem} (hclear : B.Clearing h m B.words) :
    Booting B (3 * B.words + 5) ⟨h, 4⟩ m
  | clear {h : Hart} {m : Mem} {w : ℕ} (hclear : B.Clearing h m (w + 1)) :
    Booting B (3 * w + 7) ⟨h, 5⟩ m
  | next {h : Hart} {m : Mem} {w : ℕ} (hclear : B.Clearing h m (w + 1))
    (hword : B.ClearedTo m ((h.reg .a0).toNat + 8)) : Booting B (3 * w + 6) ⟨h, 6⟩ m
  | test {h : Hart} {m : Mem} {w : ℕ} (hclear : B.Clearing h m w) :
    Booting B (3 * w + 5) ⟨h, 7⟩ m
  | cleared {h : Hart} {m : Mem} (hm : B.ClearedTo m L.kernelEnd) : Booting B 4 ⟨h, 8⟩ m
  | stack {h : Hart} {m : Mem} (hm : B.ClearedTo m L.kernelEnd)
    (hsp : h.reg .sp = BitVec.ofNat 64 B.bootStacks) : Booting B 3 ⟨h, 9⟩ m
  | size {h : Hart} {m : Mem} (hm : B.ClearedTo m L.kernelEnd)
    (hsp : h.reg .sp = BitVec.ofNat 64 B.bootStacks) (ht0 : h.reg .t0 = 4096#64) :
    Booting B 2 ⟨h, 10⟩ m
  | top {h : Hart} {m : Mem} (hm : B.ClearedTo m L.kernelEnd)
    (hsp : h.reg .sp = BitVec.ofNat 64 B.bootStacks + 4096#64) : Booting B 1 ⟨h, 11⟩ m
  | osMain {h : Hart} {m : Mem} (hm : B.ClearedTo m L.kernelEnd)
    (hsp : h.reg .sp = BitVec.ofNat 64 B.bootStacks + 4096#64) : Booting B 0 ⟨h, osMainIndex⟩ m

/-- Any other hart is on its way to `park`, or there. -/
inductive Parking (id : Word) : Core → Prop
  | entry {h : Hart} : Parking id ⟨h, 0⟩
  | named {h : Hart} (ht0 : h.reg .t0 = id) : Parking id ⟨h, 1⟩
  | wfi {h : Hart} : Parking id ⟨h, park⟩
  | again {h : Hart} : Parking id ⟨h, park + 1⟩

variable {B : BssLayout L} {h k : Hart} {x : ℕ} {m m' m'' : Mem} {w left : ℕ} {op : Op} {id : Word}
  {addressOf : ℕ → Word}

namespace BssLayout

theorem Wiped.refl (B : BssLayout L) (m : Mem) : B.Wiped m m := fun _ => Or.inl rfl

theorem Wiped.trans (h : B.Wiped m m') (h' : B.Wiped m' m'') : B.Wiped m m'' := by
  intro x
  rcases h' x with heq | hzero
  · rw [heq]
    exact h x
  · exact Or.inr hzero

theorem ClearedTo.wiped {a : ℕ} (h : B.ClearedTo m a) (hm : B.Wiped m m') : B.ClearedTo m' a := by
  intro x hge hlt
  rcases hm x with heq | ⟨-, -, hzero⟩
  · rw [heq]
    exact h x hge hlt
  · exact hzero

theorem toNat_ofNat (hx : x ≤ L.kernelEnd) : (BitVec.ofNat 64 x).toNat = x := by
  have hend := L.kernelEnd_le
  have hram : ramEnd < 2 ^ 64 := by decide
  rw [BitVec.toNat_ofNat, Nat.mod_eq_of_lt (by omega)]

theorem bssStart_le (B : BssLayout L) : B.bssStart ≤ L.kernelEnd := by
  have := B.bootStacks_ge
  have := B.bootStacks_le
  omega

/-- `.bss` consists of whole words. -/
theorem bssStart_add (B : BssLayout L) : B.bssStart + 8 * B.words = L.kernelEnd := by
  have hstart := B.bssStart_aligned
  have hend := L.kernelEnd_aligned
  have hle := B.bssStart_le
  rw [PageAligned] at hstart hend
  rw [words]
  omega

/-- The next word is cleared. -/
theorem Clearing.store (h : B.Clearing k m (w + 1)) :
    B.Wiped m (storeWord m (k.reg .a0).toNat 0#64) ∧
      B.ClearedTo (storeWord m (k.reg .a0).toNat 0#64) ((k.reg .a0).toNat + 8) := by
  have ha0 := h.a0
  have hge := h.ge
  have hin : ∀ x, (k.reg .a0).toNat ≤ x → x < (k.reg .a0).toNat + 8 →
      storeWord m (k.reg .a0).toNat 0#64 x = 0 := by
    intro x hx hx'
    rw [storeWord, if_pos ⟨hx, hx'⟩]
    simp
  -- the word lies in the section, and what is below it is not touched
  refine ⟨fun x => ?_, fun x hx hx' => ?_⟩
  · by_cases hmem : (k.reg .a0).toNat ≤ x ∧ x < (k.reg .a0).toNat + 8
    · exact Or.inr ⟨by omega, by omega, hin x hmem.1 hmem.2⟩
    · exact Or.inl (storeWord_of_notMem m 0#64 (by omega))
  · by_cases hlt : x < (k.reg .a0).toNat
    · rw [storeWord_of_notMem m 0#64 (Or.inl hlt)]
      exact h.cleared x hx hlt
    · exact hin x (by omega) hx'

theorem Clearing.wiped (h : B.Clearing k m w) (hm : B.Wiped m m') : B.Clearing k m' w :=
  { h with cleared := h.cleared.wiped hm }

/-- The loop is left behind the last word. -/
theorem Clearing.cases (h : B.Clearing k m w) :
    (k.reg .a1 ≤ k.reg .a0 ∧ w = 0 ∧ B.ClearedTo m L.kernelEnd) ∨
      (k.reg .a0 < k.reg .a1 ∧ ∃ w', w = w' + 1) := by
  have ha0 := h.a0
  have ha1 := h.a1
  rw [BitVec.le_def, BitVec.lt_def, ha1]
  cases w with
  | zero =>
    refine Or.inl ⟨by omega, rfl, ?_⟩
    rw [show L.kernelEnd = (k.reg .a0).toNat by omega]
    exact h.cleared
  | succ w => exact Or.inr ⟨by omega, w, rfl⟩

end BssLayout

/-! ### One instruction -/

variable {c : Core}

variable (addressOf) in
/-- The chosen hart executes one instruction. -/
theorem Booting.exec (hc : Booting B left c m) (hop : (start B)[c.index]? = some op) :
    ∃ left', left = left' + 1 ∧ Booting B left' (op.exec addressOf 0#64 c m).1
      (op.exec addressOf 0#64 c m).2 ∧ B.Wiped m (op.exec addressOf 0#64 c m).2 := by
  cases hc with
  | entry =>
    obtain rfl := Option.some.inj hop
    exact ⟨_, rfl, .named rfl, .refl B m⟩
  | named ht0 =>
    obtain rfl := Option.some.inj hop
    refine ⟨_, rfl, ?_, .refl B m⟩
    rw [Op.exec, if_neg (not_not.mpr ht0)]
    exact .chosen
  | chosen =>
    obtain rfl := Option.some.inj hop
    exact ⟨_, rfl, .bssStart (BssLayout.toNat_ofNat B.bssStart_le), .refl B m⟩
  | bssStart ha0 =>
    obtain rfl := Option.some.inj hop
    refine ⟨_, rfl, .bssEnd ⟨?_, BssLayout.toNat_ofNat le_rfl, ha0.ge, ?_⟩, .refl B m⟩
    · exact (congrArg (· + 8 * B.words) ha0).trans B.bssStart_add
    · -- nothing of the section lies below its start
      intro x hge hlt
      exact absurd (hlt.trans_eq ha0) (Nat.not_lt.mpr hge)
  | bssEnd hclear =>
    obtain rfl := Option.some.inj hop
    -- an empty section is passed over
    rcases hclear.cases with ⟨hle, hw, hm⟩ | ⟨hlt, w, hw⟩
    · refine ⟨4, by rw [hw], ?_, .refl B m⟩
      rw [Op.exec, if_pos hle]
      exact .cleared hm
    · refine ⟨3 * w + 7, by rw [hw]; omega, ?_, .refl B m⟩
      rw [Op.exec, if_neg (BitVec.not_le.mpr hlt)]
      exact .clear (hw ▸ hclear)
  | @clear h _ w hclear =>
    obtain rfl := Option.some.inj hop
    obtain ⟨hwiped, hword⟩ := hclear.store
    have haddr : h.addr .a0 0 = (h.reg .a0).toNat := by simp [Hart.addr]
    rw [Op.exec, haddr]
    exact ⟨_, rfl, .next (hclear.wiped hwiped) hword, hwiped⟩
  | @next h _ w hclear hword =>
    obtain rfl := Option.some.inj hop
    have ha0 := hclear.a0
    -- the section lies in the RAM, and so its addresses do not wrap around
    have hend := L.kernelEnd_le
    have hram : ramEnd < 2 ^ 64 - 8 := by decide
    have hnext : (h.reg .a0 + 8#64).toNat = (h.reg .a0).toNat + 8 := by
      rw [BitVec.toNat_add]
      simp only [BitVec.toNat_ofNat]
      omega
    refine ⟨_, rfl, .test ⟨?_, hclear.a1, ?_, ?_⟩, .refl B m⟩
    · exact (congrArg (· + 8 * w) hnext).trans (by omega)
    · exact hclear.ge.trans ((Nat.le_add_right _ 8).trans hnext.ge)
    · exact fun x hge hlt => hword x hge (hlt.trans_eq hnext)
  | test hclear =>
    obtain rfl := Option.some.inj hop
    -- the loop is left at the end of the section
    rcases hclear.cases with ⟨hle, rfl, hm⟩ | ⟨hlt, w, rfl⟩
    · refine ⟨4, rfl, ?_, .refl B m⟩
      rw [Op.exec, if_neg (BitVec.not_lt.mpr hle)]
      exact .cleared hm
    · refine ⟨3 * w + 7, by omega, ?_, .refl B m⟩
      rw [Op.exec, if_pos hlt]
      exact .clear hclear
  | cleared hm =>
    obtain rfl := Option.some.inj hop
    exact ⟨_, rfl, .stack hm rfl, .refl B m⟩
  | stack hm hsp =>
    obtain rfl := Option.some.inj hop
    exact ⟨_, rfl, .size hm hsp rfl, .refl B m⟩
  | size hm hsp ht0 =>
    obtain rfl := Option.some.inj hop
    exact ⟨_, rfl, .top hm (congrArg₂ (· + ·) hsp ht0), .refl B m⟩
  | top hm hsp =>
    obtain rfl := Option.some.inj hop
    exact ⟨_, rfl, .osMain hm hsp, .refl B m⟩
  | osMain => cases hop

variable (addressOf) in
/-- Any other hart executes one instruction. -/
theorem Parking.exec (hc : Parking id c) (hid : id ≠ 0#64) (hop : (start B)[c.index]? = some op) :
    Parking id (op.exec addressOf id c m).1 ∧ (op.exec addressOf id c m).2 = m := by
  cases hc with
  | entry =>
    obtain rfl := Option.some.inj hop
    exact ⟨.named rfl, rfl⟩
  | named ht0 =>
    obtain rfl := Option.some.inj hop
    refine ⟨?_, rfl⟩
    rw [Op.exec, if_pos (by rwa [ht0])]
    exact .wfi
  | wfi =>
    obtain rfl := Option.some.inj hop
    exact ⟨.again, rfl⟩
  | again =>
    obtain rfl := Option.some.inj hop
    exact ⟨.wfi, rfl⟩

/-! ### Any interleaving -/

/-- Where a hart is, by its number, and what has happened to the memory `m₀` meanwhile. -/
structure Attends (B : BssLayout L) (m₀ : Mem) (id : Word) (c : Core) (m : Mem) : Prop where
  chosen : id = 0#64 → ∃ left, Booting B left c m
  other : id ≠ 0#64 → Parking id c
  wiped : B.Wiped m₀ m

variable {ι : Type*} [DecidableEq ι] {hartId : ι → Word} {s s' : Harts ι} {is : List ι} {i : ι}
  {m₀ : Mem}

/-- Zeros are not disturbed by more zeros. -/
theorem Booting.wiped (hc : Booting B left c m) (hm : B.Wiped m m') : Booting B left c m' := by
  cases hc with
  | entry => exact .entry
  | named ht0 => exact .named ht0
  | chosen => exact .chosen
  | bssStart ha0 => exact .bssStart ha0
  | bssEnd hclear => exact .bssEnd (hclear.wiped hm)
  | clear hclear => exact .clear (hclear.wiped hm)
  | next hclear hword => exact .next (hclear.wiped hm) (hword.wiped hm)
  | test hclear => exact .test (hclear.wiped hm)
  | cleared hzero => exact .cleared (hzero.wiped hm)
  | stack hzero hsp => exact .stack (hzero.wiped hm) hsp
  | size hzero hsp ht0 => exact .size (hzero.wiped hm) hsp ht0
  | top hzero hsp => exact .top (hzero.wiped hm) hsp
  | osMain hzero hsp => exact .osMain (hzero.wiped hm) hsp

variable (addressOf) in
/-- What an instruction does to the hart that executes it, and to the memory. -/
theorem Attends.exec (hc : Attends B m₀ id c m) (hop : (start B)[c.index]? = some op) :
    Attends B m₀ id (op.exec addressOf id c m).1 (op.exec addressOf id c m).2 ∧
      B.Wiped m (op.exec addressOf id c m).2 := by
  -- the chosen hart, and any other one
  by_cases hid : id = 0#64
  · subst hid
    obtain ⟨left, hboot⟩ := hc.chosen rfl
    obtain ⟨left', -, hboot', hwiped⟩ := hboot.exec addressOf hop
    exact ⟨⟨fun _ => ⟨left', hboot'⟩, fun hne => absurd rfl hne, hc.wiped.trans hwiped⟩, hwiped⟩
  · obtain ⟨hpark, heq⟩ := (hc.other hid).exec addressOf hid hop
    rw [heq]
    exact ⟨⟨fun h => absurd h hid, fun _ => hpark, hc.wiped⟩, .refl B m⟩

/-- Every hart is where its number says, after any interleaving. -/
theorem attends_of_run (h : Harts.Run (start B) addressOf hartId s is s')
    (hs : ∀ i, Attends B m₀ (hartId i) (s.cores i) s.mem) :
    ∀ i, Attends B m₀ (hartId i) (s'.cores i) s'.mem := by
  refine Harts.invariant_of_local (Q := fun i => Attends B m₀ (hartId i)) ?_ ?_ h hs
  · intro i op c m hc hop
    exact (hc.exec addressOf hop).1
  · intro i j op c c' m _ hc hc' hop
    have hwiped := (hc.exec addressOf hop).2
    refine ⟨fun hid => ?_, hc'.other, hc'.wiped.trans hwiped⟩
    obtain ⟨left, hboot⟩ := hc'.chosen hid
    exact ⟨left, hboot.wiped hwiped⟩

/-- The instructions of the chosen hart count down to the call, whatever the others do. -/
theorem booting_of_run (h : Harts.Run (start B) addressOf hartId s is s')
    (hs : ∀ i, Attends B m₀ (hartId i) (s.cores i) s.mem) (hid : hartId i = 0#64)
    (hboot : Booting B left (s.cores i) s.mem) :
    ∃ left', Booting B left' (s'.cores i) s'.mem ∧ is.count i + left' = left := by
  induction h generalizing left with
  | nil => exact ⟨left, hboot, Nat.zero_add left⟩
  | cons hstep hrest ih =>
    rename_i s s₁ _ j is
    have hs₁ := attends_of_run (.single hstep) hs
    obtain ⟨op, hop, rfl⟩ := Harts.step_eq_some.mp hstep
    -- one of its own instructions has been executed, or one of another hart
    by_cases hji : j = i
    · subst hji
      obtain ⟨left₁, rfl, hboot₁, -⟩ := hboot.exec addressOf hop
      obtain ⟨left', hboot', hcount⟩ :=
        ih hs₁ (show Booting B left₁ _ _ by simpa [hid] using hboot₁)
      refine ⟨left', hboot', ?_⟩
      rw [List.count_cons_self]
      omega
    · have hwiped := ((hs j).exec addressOf hop).2
      have hkept : Booting B left (Function.update s.cores j
          (op.exec addressOf (hartId j) (s.cores j) s.mem).1 i)
          (op.exec addressOf (hartId j) (s.cores j) s.mem).2 := by
        rw [Function.update_of_ne (Ne.symm hji)]
        exact hboot.wiped hwiped
      obtain ⟨left', hboot', hcount⟩ := ih hs₁ hkept
      exact ⟨left', hboot', by rwa [List.count_cons_of_ne hji]⟩

theorem Booting.index_eq_iff (hc : Booting B left c m) : c.index = osMainIndex ↔ left = 0 := by
  cases hc <;> simp [osMainIndex]

theorem Booting.lt (hc : Booting B left c m) (hleft : left ≠ 0) : c.index < (start B).length := by
  rw [show (start B).length = 15 from rfl]
  cases hc <;> simp at hleft ⊢

theorem Parking.lt (hc : Parking id c) : c.index < (start B).length := by
  rw [show (start B).length = 15 from rfl]
  cases hc <;> simp [park]

/-- `os_main` finds the whole section cleared. -/
theorem BssLayout.ClearedTo.loadWord (h : B.ClearedTo m L.kernelEnd) {a : ℕ} (hge : B.bssStart ≤ a)
    (hle : a + 8 ≤ L.kernelEnd) : loadWord m a = 0#64 :=
  loadWord_eq_zero fun j hj => h (a + j) (by omega) (by omega)

/-- The contexts and the trapframes of all task slots are empty. -/
theorem BssLayout.ClearedTo.slots (h : B.ClearedTo m L.kernelEnd) (slot : Fin n) :
    (∀ f, contextLoad m (L.context slot) f = 0#64) ∧
      ∀ f, tfLoad m (L.taskTrapFrame slot) f = 0#64 := by
  obtain ⟨-, hcontext, htasks, -⟩ := L.context_bounds slot
  obtain ⟨-, hstack, hstacks, -⟩ := L.stack_bounds slot
  have hframe := L.taskTrapFrame_le slot
  have hend := L.kernelStackEnd_eq slot
  have hge := B.tasks_ge
  have hge' := B.taskKernelStacks_ge
  refine ⟨fun f => h.loadWord ?_ ?_, fun f => h.loadWord ?_ ?_⟩
  · omega
  · have := f.offset_lt
    omega
  · omega
  · have := f.offset_lt
    omega

/-- What is known when `os_main` is called. -/
theorem Booting.at_osMain (hc : Booting B left c m) (hindex : c.index = osMainIndex) :
    B.ClearedTo m L.kernelEnd ∧ c.hart.reg .sp = BitVec.ofNat 64 B.bootStacks + 4096#64 := by
  cases hc with
  | osMain hm hsp => exact ⟨hm, hsp⟩
  | _ => exact absurd hindex (by simp [osMainIndex])

variable (addressOf) in
/-- A hart that has not called `os_main` has an instruction to execute. -/
theorem Attends.exists_step (hc : Attends B m₀ (hartId i) (s.cores i) s.mem)
    (hindex : (s.cores i).index ≠ osMainIndex) :
    ∃ s', s.step (start B) addressOf hartId i = some s' := by
  have hlt : (s.cores i).index < (start B).length := by
    by_cases hid : hartId i = 0#64
    · obtain ⟨left, hboot⟩ := hc.chosen hid
      exact hboot.lt (mt hboot.index_eq_iff.mpr hindex)
    · exact (hc.other hid).lt
  exact ⟨_, Harts.step_eq_some.mpr ⟨_, List.getElem?_eq_getElem hlt, rfl⟩⟩

theorem Booting.of_index (h : c.index = 0) : Booting B (3 * B.words + 9) c m := by
  obtain ⟨hart, index⟩ := c
  obtain rfl : index = 0 := h
  exact .entry

theorem Parking.of_index (h : c.index = 0) : Parking id c := by
  obtain ⟨hart, index⟩ := c
  obtain rfl : index = 0 := h
  exact .entry

/-! ### The start -/

omit [DecidableEq ι] in
theorem attends_of_index (hstart : ∀ i, (s.cores i).index = 0) :
    ∀ i, Attends B s.mem (hartId i) (s.cores i) s.mem := fun i =>
  ⟨fun _ => ⟨_, .of_index (hstart i)⟩, fun _ => .of_index (hstart i), .refl B s.mem⟩

/-- The harts zero bytes of `.bss`, and change nothing else. -/
theorem wiped_of_run (h : Harts.Run (start B) addressOf hartId s is s')
    (hs : ∀ i, Attends B s.mem (hartId i) (s.cores i) s.mem) : B.Wiped s.mem s'.mem := by
  rcases isEmpty_or_nonempty ι with hempty | ⟨⟨i⟩⟩
  · cases h with
    | nil => exact .refl B s.mem
    | @cons _ _ _ i => exact hempty.elim i
  · exact (attends_of_run h hs i).wiped

/-- After any interleaving of harts that begin at `_start`: bytes of `.bss` have been zeroed and
nothing else has changed; the harts with other numbers than 0 are in `park` or on their way; a hart
with the number 0 has called `os_main` if and only if it has executed its instructions, and then on
the boot stack, with `.bss` cleared; and no hart is stuck before that. -/
theorem start_calls_osMain (hstart : ∀ i, (s.cores i).index = 0)
    (hrun : Harts.Run (start B) addressOf hartId s is s') :
    B.Wiped s.mem s'.mem ∧
      (∀ i, hartId i ≠ 0#64 → Parking (hartId i) (s'.cores i)) ∧
      (∀ i, hartId i = 0#64 → is.count i ≤ 3 * B.words + 9 ∧
        ((s'.cores i).index = osMainIndex ↔ is.count i = 3 * B.words + 9) ∧
        ((s'.cores i).index = osMainIndex → B.ClearedTo s'.mem L.kernelEnd ∧
          (s'.cores i).hart.reg .sp = BitVec.ofNat 64 B.bootStacks + 4096#64 ∧
          ∀ slot, (∀ f, contextLoad s'.mem (L.context slot) f = 0#64) ∧
            ∀ f, tfLoad s'.mem (L.taskTrapFrame slot) f = 0#64)) ∧
      ∀ i, (s'.cores i).index ≠ osMainIndex →
        ∃ s'', s'.step (start B) addressOf hartId i = some s'' := by
  have hattends : ∀ i, Attends B s.mem (hartId i) (s.cores i) s.mem := attends_of_index hstart
  have hattends' := attends_of_run hrun hattends
  refine ⟨wiped_of_run hrun hattends, fun i => (hattends' i).other, fun i hid => ?_,
    fun i => (hattends' i).exists_step addressOf⟩
  -- it calls `os_main` when no instruction is left
  obtain ⟨left, hboot, hcount⟩ := booting_of_run hrun hattends hid (.of_index (hstart i))
  refine ⟨by omega, ?_, fun hindex => ?_⟩
  · rw [hboot.index_eq_iff]
    omega
  · obtain ⟨hm, hsp⟩ := hboot.at_osMain hindex
    exact ⟨hm, hsp, hm.slots⟩

/-- Alone, the chosen hart comes to `os_main`. -/
theorem exists_started (hs : ∀ i, Attends B m₀ (hartId i) (s.cores i) s.mem)
    (hid : hartId i = 0#64) (hboot : Booting B left (s.cores i) s.mem) :
    ∃ s', Harts.Run (start B) addressOf hartId s (List.replicate left i) s' ∧
      (s'.cores i).index = osMainIndex := by
  induction left generalizing s with
  | zero => exact ⟨s, .nil s, hboot.index_eq_iff.mpr rfl⟩
  | succ left ih =>
    have hindex : (s.cores i).index ≠ osMainIndex :=
      mt hboot.index_eq_iff.mp (Nat.succ_ne_zero left)
    obtain ⟨s₁, hstep⟩ := (hs i).exists_step addressOf hindex
    obtain ⟨left₁, hboot₁, hcount⟩ := booting_of_run (.single hstep) hs hid hboot
    obtain rfl : left₁ = left := by
      rw [List.count_singleton_self] at hcount
      omega
    obtain ⟨s', hrun, hs'⟩ := ih (attends_of_run (.single hstep) hs) hboot₁
    exact ⟨s', .cons hstep hrun, hs'⟩

/-- The `.bss` section of the kernel with two task slots. -/
def twoSlotsBss : BssLayout twoSlots where
  bssStart := 0x80005000
  bootStacks := 0x8000F000
  bssStart_aligned := twoSlots.rodataEnd_aligned
  rodataEnd_le := by decide
  tasks_ge := by decide
  taskKernelStacks_ge := by decide
  bootStacks_ge := by decide
  bootStacks_le := by decide

/-- Two harts that begin at `_start`, with a memory full of ones. -/
def twoHarts : Harts (Fin 2) :=
  ⟨fun _ => ⟨⟨fun _ => 0#64, fun _ => 0#64, 0x80000000#64, .machine⟩, 0⟩, fun _ => 0xFF⟩

/-- The first of them comes to `os_main`. -/
theorem exists_twoHarts_started : ∃ (s' : Harts (Fin 2)) (is : List (Fin 2)),
    Harts.Run (start twoSlotsBss) (fun _ => 0#64) (fun i => BitVec.ofNat 64 i.val) twoHarts is s' ∧
      (s'.cores 0).index = osMainIndex := by
  have hattends : ∀ i : Fin 2, Attends twoSlotsBss twoHarts.mem (BitVec.ofNat 64 i.val)
      (twoHarts.cores i) twoHarts.mem := fun i =>
    ⟨fun _ => ⟨_, .entry⟩, fun _ => .entry, .refl _ _⟩
  obtain ⟨s', hrun, hindex⟩ := exists_started (i := 0) hattends rfl .entry
  exact ⟨s', _, hrun, hindex⟩

/-- Two harts: the first calls `os_main`, the second waits. -/
theorem exists_start_calls_osMain : ∃ (s' : Harts (Fin 2)) (is : List (Fin 2)),
    Harts.Run (start twoSlotsBss) (fun _ => 0#64) (fun i => BitVec.ofNat 64 i.val) twoHarts is s' ∧
      (s'.cores 0).index = osMainIndex ∧ is.count 0 = 16905 ∧
      twoSlotsBss.Wiped twoHarts.mem s'.mem ∧ twoSlotsBss.ClearedTo s'.mem 0x80010000 ∧
      (s'.cores 0).hart.reg .sp = 0x80010000#64 ∧ Parking 1#64 (s'.cores 1) := by
  obtain ⟨s', is, hrun, hindex⟩ := exists_twoHarts_started
  obtain ⟨hwiped, hpark, hchosen, -⟩ := start_calls_osMain (fun _ => rfl) hrun
  obtain ⟨-, hcount, hcalled⟩ := hchosen 0 rfl
  obtain ⟨hcleared, hsp, -⟩ := hcalled hindex
  exact ⟨s', is, hrun, hindex, hcount.mp hindex, hwiped, hcleared, hsp, hpark 1 (by decide)⟩

/-! ### The code of the kernel -/

/-- What the start zeroes lies behind the code and the constants. -/
theorem BssLayout.Wiped.text (h : B.Wiped m m') {a : ℕ} (ha : a < L.rodataEnd) : m' a = m a := by
  rcases h a with heq | ⟨hge, -, -⟩
  · exact heq
  · exact absurd (ha.trans_le B.rodataEnd_le) (Nat.not_lt.mpr hge)

variable {img : AppImage} {fits : Prop} {c₀ c : Config n}

/-- A run changes neither the code nor the constants of the kernel. -/
theorem Inv.run_text (hc : Inv L fits c₀) (hrun : Run L img (SafeRead L) c₀ c)
    (hfits : fits → img.Fits) :
    ∀ a, textStart ≤ a → a < L.rodataEnd → c.machine.mem a = c₀.machine.mem a := by
  induction hrun with
  | refl => exact fun _ _ _ => rfl
  | tail hrun hstep ih =>
    obtain ⟨e, hsafe, hstep⟩ := hstep
    have hc₁ := hc.run hrun hfits fun _ _ => id
    intro a hlo hhi
    rw [(hstep.advanced hc₁ hfits hsafe).onBehalf.text a hlo hhi]
    exact ih a hlo hhi

/-- From the start of the harts on, through `os_main` and any run of the kernel and its programs
whose reads spare the kernel, no byte of the code or of the constants of the kernel is changed. -/
theorem kernel_image_kept [NeZero n] (hstart : ∀ i, (s.cores i).index = 0)
    (hharts : Harts.Run (start B) addressOf hartId s is s') (hboot : BootedOn L s'.mem c₀)
    (hrun : Run L img (SafeRead L) c₀ c) :
    ∀ a, textStart ≤ a → a < L.rodataEnd → c.machine.mem a = s.mem a := by
  intro a hlo hhi
  have hwiped : B.Wiped s.mem s'.mem := by
    have hattends : ∀ i, Attends B s.mem (hartId i) (s.cores i) s.mem := attends_of_index hstart
    exact wiped_of_run hharts hattends
  calc c.machine.mem a = c₀.machine.mem a :=
        hboot.booted.inv.run_text hrun False.elim a hlo hhi
    _ = s'.mem a := hboot.firstTask.text a hlo hhi
    _ = s.mem a := hwiped.text hhi

/-- The first program computes after the start of two harts. -/
theorem exists_kernel_image_kept : ∃ (s' : Harts (Fin 2)) (is : List (Fin 2)) (c₀ c : Config 2),
    Harts.Run (start twoSlotsBss) (fun _ => 0#64) (fun i => BitVec.ofNat 64 i.val) twoHarts is s' ∧
      (s'.cores 0).index = osMainIndex ∧ BootedOn twoSlots s'.mem c₀ ∧
      Run twoSlots minimalImage (SafeRead twoSlots) c₀ c ∧
      ∀ a, textStart ≤ a → a < 0x80005000 → c.machine.mem a = 0xFF := by
  obtain ⟨s', is, hrun, hindex⟩ := exists_twoHarts_started
  obtain ⟨c₀, c, hboot, hpath⟩ := exists_run s'.mem (fun _ => 1) 4
  have hsafe : Run twoSlots minimalImage (SafeRead twoSlots) c₀ c := by
    cases hpath with
    | cons hstep hrest =>
      cases hrest
      exact .single ⟨_, hstep.1.safeRead, hstep.2⟩
  exact ⟨s', is, c₀, c, hrun, hindex, hboot, hsafe,
    kernel_image_kept (fun _ => rfl) hrun hboot hsafe⟩

end RiscvKernel
