import Mathlib.Logic.Function.Basic
import RiscvKernel.Lib.Riscv
import RiscvKernel.Lib.Simulation

/-!
# Harts that share a memory

Assembly code with branches, executed by any number of harts at once: in each step one of them
executes the instruction that it has come to. Addresses in the code are the numbers of the
instructions; a hart that has come to a number outside the code has left it.

* `invariant_of_local`: an assertion for each hart, which its own instructions keep and those of the
  others do not break, holds in every state that an interleaving reaches.
-/

namespace Riscv

open ByteMemory Simulation

/-- The instructions of code with branches. -/
inductive Op
  | instr (i : Instr)
  /-- `csrr rd, mhartid`. -/
  | hartId (rd : Reg)
  /-- `sd zero, (base)`. -/
  | sdZero (base : Reg)
  | add (rd rs rs' : Reg)
  | bnez (rs : Reg) (target : ℕ)
  | bltu (rs rs' : Reg) (target : ℕ)
  | bgeu (rs rs' : Reg) (target : ℕ)
  | j (target : ℕ)
  | call (target : ℕ)
  | wfi
  deriving DecidableEq, Repr

/-- A hart, and the number of the instruction that it has come to. -/
structure Core where
  hart : Hart
  index : ℕ

/-- Execute one instruction on the hart with the number `id`. The instructions are placed at the
addresses `addressOf`. -/
def Op.exec (addressOf : ℕ → Word) (id : Word) (op : Op) (k : Core) (m : Mem) : Core × Mem :=
  let next := k.index + 1
  match op with
  | .instr i =>
    let (h, m) := Riscv.exec i (k.hart, m)
    ({ hart := h, index := next }, m)
  | .hartId rd => ({ hart := k.hart.setReg rd id, index := next }, m)
  | .sdZero base => ({ k with index := next }, storeWord m (k.hart.addr base 0) 0#64)
  | .add rd rs rs' =>
    ({ hart := k.hart.setReg rd (k.hart.reg rs + k.hart.reg rs'), index := next }, m)
  | .bnez rs target => ({ k with index := if k.hart.reg rs ≠ 0#64 then target else next }, m)
  | .bltu rs rs' target =>
    ({ k with index := if k.hart.reg rs < k.hart.reg rs' then target else next }, m)
  | .bgeu rs rs' target =>
    ({ k with index := if k.hart.reg rs' ≤ k.hart.reg rs then target else next }, m)
  | .j target => ({ k with index := target }, m)
  | .call target => ({ hart := k.hart.setReg .ra (addressOf next), index := target }, m)
  | .wfi => ({ k with index := next }, m)

/-- Harts with a common memory. -/
structure Harts (ι : Type*) where
  cores : ι → Core
  mem : Mem

namespace Harts

variable {ι : Type*} [DecidableEq ι]

/-- One of the harts executes an instruction, if there is one. -/
def step (code : List Op) (addressOf : ℕ → Word) (hartId : ι → Word) (s : Harts ι) (i : ι) :
    Option (Harts ι) :=
  code[(s.cores i).index]?.map fun op =>
    let (k, m) := op.exec addressOf (hartId i) (s.cores i) s.mem
    { cores := Function.update s.cores i k, mem := m }

/-- The harts execute instructions in any order. -/
def Run (code : List Op) (addressOf : ℕ → Word) (hartId : ι → Word) :
    Harts ι → List ι → Harts ι → Prop :=
  Path fun s i s' => s.step code addressOf hartId i = some s'

variable {code : List Op} {addressOf : ℕ → Word} {hartId : ι → Word} {s s' : Harts ι} {is : List ι}
  {i j : ι}

theorem step_eq_some : s.step code addressOf hartId i = some s' ↔
    ∃ op, code[(s.cores i).index]? = some op ∧
      s' = { cores := Function.update s.cores i
              (op.exec addressOf (hartId i) (s.cores i) s.mem).1
             mem := (op.exec addressOf (hartId i) (s.cores i) s.mem).2 } := by
  rw [step, Option.map_eq_some_iff]
  constructor
  · rintro ⟨op, hop, rfl⟩
    exact ⟨op, hop, rfl⟩
  · rintro ⟨op, hop, rfl⟩
    exact ⟨op, hop, rfl⟩

/-- Assertions that are proved hart by hart: the instructions of a hart keep its own assertion, and
what they store does not break the assertion of another hart. -/
theorem invariant_of_local {Q : ι → Core → Mem → Prop}
    (hlocal : ∀ i op k m, Q i k m → code[k.index]? = some op →
      Q i (op.exec addressOf (hartId i) k m).1 (op.exec addressOf (hartId i) k m).2)
    (hfree : ∀ i j op k k' m, i ≠ j → Q i k m → Q j k' m → code[k.index]? = some op →
      Q j k' (op.exec addressOf (hartId i) k m).2)
    (h : Run code addressOf hartId s is s') (hs : ∀ i, Q i (s.cores i) s.mem) :
    ∀ i, Q i (s'.cores i) s'.mem := by
  refine Path.invariant (P := fun s => ∀ i, Q i (s.cores i) s.mem) ?_ h hs
  intro s i s' hs hstep j
  obtain ⟨op, hop, rfl⟩ := step_eq_some.mp hstep
  -- the hart that has moved keeps its assertion itself, and does not break those of the others
  by_cases hji : j = i
  · subst hji
    simp only [Function.update_self]
    exact hlocal j op _ _ (hs j) hop
  · simp only [Function.update_of_ne hji]
    exact hfree i j op _ _ _ (Ne.symm hji) (hs i) (hs j) hop

end Harts

end Riscv
