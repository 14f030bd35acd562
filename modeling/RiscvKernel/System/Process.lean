import RiscvKernel.System.Serve

/-!
# Processes

What the kernel is for: up to `n` processes, each with registers and an address space of its own,
that take turns on one hart. Nothing here speaks of page tables, trapframes, contexts or kernel
stacks.

* `World.next`: what an action of the current process, or an interrupt, does.
* `World.boot`: the world that the kernel starts.
* `World.next_cases`: everything an action can do.
* `World.next_ok`: the current process is always there, and awake.
-/

namespace RiscvKernel

open ByteMemory Riscv CyclicScan

variable {n : ℕ}

/-! ### Address spaces -/

/-- What a process may do at an address. -/
structure Rights where
  read : Bool
  write : Bool
  exec : Bool
  deriving DecidableEq, Repr

/-- A byte of an address space. -/
@[ext]
structure Cell where
  rights : Rights
  byte : Byte

/-- An address space. Of an address Sv39 translates 39 bits. -/
abbrev Space : Type := BitVec 39 → Option Cell

/-- The address that a program uses, as its address space has it. -/
def spaceAddr (va : Word) : BitVec 39 := va.setWidth 39

/-- A store of a byte, if the process may write there. -/
def Space.store (space : Space) (va : Word) (b : Byte) : Option Space :=
  (space (spaceAddr va)).bind fun cell =>
    if cell.rights.write then
      some (Function.update space (spaceAddr va) (some { cell with byte := b }))
    else none

theorem Space.store_eq {space : Space} {va : Word} {cell : Cell}
    (hcell : space (spaceAddr va) = some cell) (hwrite : cell.rights.write = true) (b : Byte) :
    space.store va b
      = some (Function.update space (spaceAddr va) (some { cell with byte := b })) := by
  rw [store, hcell, Option.bind_some, if_pos hwrite]

/-! ### Programs -/

instance (img : AppImage) : Decidable img.Loads := inferInstanceAs (Decidable (_ ∧ _))

instance (va : Word) : Decidable (InStackPage va) := inferInstanceAs (Decidable (_ ∧ _))

instance (ph : Elf64Phdr) (va : Word) : Decidable (ph.InPages va) :=
  inferInstanceAs (Decidable (_ ∧ _))

/-- What the header of a segment allows. -/
def Elf64Phdr.rights (ph : Elf64Phdr) : Rights where
  read := ph.pFlags &&& elfPfR ≠ 0
  write := ph.pFlags &&& elfPfW ≠ 0
  exec := ph.pFlags &&& elfPfX ≠ 0

/-- The segment of an image that has a page at an address. -/
def AppImage.segmentAt (img : AppImage) (va : Word) : Option Elf64Phdr :=
  ((List.range img.ehdr.ePhnum.toNat).map img.phdr).find? fun ph => ph.IsLoad ∧ ph.InPages va

/-- The address space of a program that starts: a cleared stack page, and the segments of the
image. -/
def imageSpace (img : AppImage) : Space := fun a =>
  let va := a.setWidth 64
  if InStackPage va then some ⟨⟨true, true, false⟩, 0⟩
  else (img.segmentAt va).map fun ph => ⟨ph.rights, fileByte img ph va⟩

/-- The address space of the first program: the text and the read-only data of the kernel, a stack
page and two data pages. -/
def bootSpace (L : Layout n) (kernel : Mem) : Space := fun a =>
  let va : Word := a.setWidth 64
  if textStart ≤ va.toNat ∧ va.toNat < L.textEnd then some ⟨⟨true, false, true⟩, kernel va.toNat⟩
  else if L.textEnd ≤ va.toNat ∧ va.toNat < L.rodataEnd then
    some ⟨⟨true, false, false⟩, kernel va.toNat⟩
  else if InStackPage va ∨ pageVa va = userRwPageVa then some ⟨⟨true, true, false⟩, 0⟩
  else if pageVa va = userRoPageVa then some ⟨⟨true, false, false⟩, 0⟩
  else none

/-! ### Processes -/

/-- A process. -/
@[ext]
structure Process where
  reg : Reg → Word
  pc : Word
  space : Space
  /-- The process takes its turns. -/
  awake : Bool

namespace Process

/-- A program at its entry point. -/
def start (entry : Word) (space : Space) : Process where
  reg r := if r = .sp then userStackTop else 0
  pc := entry
  space := space
  awake := true

/-- Go on behind the instruction that trapped. -/
def skip (p : Process) : Process := { p with pc := p.pc + 4#64 }

/-- Go on behind the instruction that trapped, with a result. -/
def answer (p : Process) (v : Word) : Process :=
  { p.skip with reg := fun r => if r = .a0 then v else p.reg r }

/-- The arguments of the read system call ask for a character. -/
def WantsInput (p : Process) : Prop :=
  (p.reg .a0).setWidth 32 = 0#32 ∧ p.reg .a1 ≠ 0 ∧ p.reg .a2 ≠ 0

instance (p : Process) : Decidable p.WantsInput := inferInstanceAs (Decidable (_ ∧ _ ∧ _))

/-- What a process may be after an action of its own that lets it go on. -/
structure Evolves (img : AppImage) (p q : Process) : Prop where
  awake : p.awake = true → q.awake = true
  space : q.space = p.space ∨ (∃ va b, p.space.store va b = some q.space) ∨
    (img.Loads ∧ q.space = imageSpace img)

theorem Evolves.of_space {img : AppImage} {p q : Process} (hawake : p.awake = true → q.awake = true)
    (hspace : q.space = p.space) : p.Evolves img q :=
  ⟨hawake, Or.inl hspace⟩

end Process

/-- The processes by their slots, and the one whose turn it is. -/
@[ext]
structure World (n : ℕ) where
  current : Fin n
  proc : Fin n → Option Process

/-- What the current process or an interrupt does. -/
inductive Action (n : ℕ)
  | compute (reg : Reg → Word) (pc : Word)
  | store (va : Word) (b : Byte)
  | trap (service : Service n) (cause : Word)

namespace World

/-- Put a process in a slot, or leave the slot empty. -/
def set (w : World n) (id : Fin n) (p : Option Process) : World n :=
  { w with proc := Function.update w.proc id p }

/-- The current process goes on as `p`. -/
def become (w : World n) (p : Process) : World n := w.set w.current (some p)

/-- The slot has a process that takes its turns. -/
def awake (w : World n) (id : Fin n) : Bool := (w.proc id).any Process.awake

/-- The turn goes to the next process that is awake, the current one being the last that is asked.
If there is none, everything stops. -/
def yield (w : World n) : Option (World n) :=
  (scan w.awake n w.current).map fun id => { w with current := id }

/-- The first empty slot. -/
def vacant (w : World n) : Option (Fin n) := (List.finRange n).find? fun id => (w.proc id).isNone

/-- A copy of the current process `p` in an empty slot. The two differ in the result. -/
def clone (w : World n) (p : Process) : World n :=
  match w.vacant with
  | none => w.become (p.answer (-1))
  | some d => (w.become (p.answer (BitVec.ofNat 64 d))).set d (some (p.answer 0))

/-- A system call of the current process `p`. What a read does that asks for a character is not said
here. -/
def call (img : AppImage) (w : World n) (p : Process) : Syscall → Option (World n)
  | .read => if p.WantsInput then none else some (w.become (p.answer (-1)))
  | .write => some (w.become p.skip)
  | .schedYield => (w.become p.skip).yield
  | .exit => (w.set w.current none).yield
  | .clone => some (w.clone p)
  | .execve =>
    if img.Loads then some (w.become (.start img.ehdr.eEntry (imageSpace img)))
    else some (w.become p.skip)

/-- Wake up a process that sleeps. -/
def wakeup (w : World n) (id : Fin n) : Option (World n) :=
  (w.proc id).bind fun q =>
    if q.awake then none else some (w.set id (some { q with awake := true }))

/-- A trap of the current process `p`. An exception that is no system call stops everything. -/
def trap (img : AppImage) (w : World n) (p : Process) (cause : Word) :
    Service n → Option (World n)
  | .trapHandler =>
    if isInterrupt cause then if exceptionCode cause = 7 then w.yield else some w
    else if exceptionCode cause = 8 ∨ exceptionCode cause = 11 then
      match syscallOf cause (p.reg .a7) with
      | some call => w.call img p call
      | none => some (w.become p.skip)
    else none
  | .sleep => (w.become { p.skip with awake := false }).yield
  | .wakeup id => (w.become p.skip).wakeup id

/-- An action while `p` is the current process. -/
def act (img : AppImage) (w : World n) (p : Process) : Action n → Option (World n)
  | .compute reg pc => some (w.become { p with reg := reg, pc := pc })
  | .store va b => (p.space.store va b).map fun space => w.become { p with space := space }
  | .trap service cause => w.trap img p cause service

/-- What an action does; `none` if it stops everything, or if nothing is said about it. -/
def next (img : AppImage) (w : World n) (a : Action n) : Option (World n) :=
  (w.proc w.current).bind fun p => w.act img p a

/-- The world at boot: one process, in the text of the kernel. -/
def boot [NeZero n] (L : Layout n) (kernel : Mem) : World n where
  current := 0
  proc := Function.update (fun _ => none) 0 (some (.start L.taskShell (bootSpace L kernel)))

/-! ### The current process -/

/-- The current process is there, and takes its turns. -/
def Ok (w : World n) : Prop := ∃ p, w.proc w.current = some p ∧ p.awake = true

variable {w w' : World n} {p : Process} {id : Fin n} {img : AppImage} {a : Action n}

@[simp] theorem set_current (w : World n) (id : Fin n) (p : Option Process) :
    (w.set id p).current = w.current := rfl
@[simp] theorem set_proc (w : World n) (id : Fin n) (p : Option Process) :
    (w.set id p).proc = Function.update w.proc id p := rfl
@[simp] theorem become_current (w : World n) (p : Process) : (w.become p).current = w.current := rfl
@[simp] theorem become_proc (w : World n) (p : Process) :
    (w.become p).proc = Function.update w.proc w.current (some p) := rfl

@[simp] theorem boot_proc [NeZero n] (L : Layout n) (kernel : Mem) : (boot L kernel).proc
    = Function.update (fun _ => none) 0 (some (.start L.taskShell (bootSpace L kernel))) := rfl

theorem awake_iff : w.awake id = true ↔ ∃ p, w.proc id = some p ∧ p.awake = true := by
  rw [awake, Option.any_eq_true]

theorem yield_eq_some (h : w.yield = some w') :
    w'.proc = w.proc ∧ w.awake w'.current = true ∧
      ∀ id, w.awake id = true → gap w.current w'.current ≤ gap w.current id := by
  rw [yield, Option.map_eq_some_iff] at h
  obtain ⟨id, hscan, rfl⟩ := h
  exact ⟨rfl, scan_eq_some hscan⟩

theorem vacant_eq_some (h : w.vacant = some id) : w.proc id = none := by
  simpa using List.find?_some h

/-! ### Actions -/

theorem call_cases {call : Syscall} (h : w.call img p call = some w') :
    (∃ q, p.Evolves img q ∧ w' = w.become q) ∨ w' = w.clone p ∨
      ∃ q, (∀ r, q = some r → r.space = p.space) ∧ (w.set w.current q).yield = some w' := by
  cases call with
  | read =>
    rw [World.call] at h
    split_ifs at h
    exact Or.inl ⟨p.answer (-1), .of_space id rfl, (Option.some.inj h).symm⟩
  | write => exact Or.inl ⟨p.skip, .of_space id rfl, (Option.some.inj h).symm⟩
  | schedYield =>
    refine Or.inr (Or.inr ⟨some p.skip, fun r hr => ?_, h⟩)
    obtain rfl := Option.some.inj hr
    rfl
  | exit =>
    refine Or.inr (Or.inr ⟨none, fun r hr => ?_, h⟩)
    cases hr
  | clone => exact Or.inr (Or.inl (Option.some.inj h).symm)
  | execve =>
    rw [World.call] at h
    split_ifs at h with hloads
    · exact Or.inl ⟨.start img.ehdr.eEntry (imageSpace img),
        ⟨fun _ => rfl, Or.inr (Or.inr ⟨hloads, rfl⟩)⟩, (Option.some.inj h).symm⟩
    · exact Or.inl ⟨p.skip, .of_space id rfl, (Option.some.inj h).symm⟩

/-- Everything an action can do: the current process goes on, makes a copy of itself, wakes another
one up, or gives its turn away. -/
theorem next_cases (h : w.next img a = some w') : ∃ p, w.proc w.current = some p ∧
    ((∃ q, p.Evolves img q ∧ w' = w.become q) ∨ w' = w.clone p ∨
      (∃ id q, (w.become p.skip).proc id = some q ∧
        w' = (w.become p.skip).set id (some { q with awake := true })) ∨
      ∃ q, (∀ r, q = some r → r.space = p.space) ∧ (w.set w.current q).yield = some w') := by
  rw [next, Option.bind_eq_some_iff] at h
  obtain ⟨p, hp, h⟩ := h
  -- to go on unchanged is to become what one is
  have hsame : w.become p = w := World.ext rfl (Function.update_eq_self_iff.mpr hp.symm)
  refine ⟨p, hp, ?_⟩
  cases a with
  | compute reg pc =>
    exact Or.inl ⟨{ p with reg := reg, pc := pc }, .of_space id rfl, (Option.some.inj h).symm⟩
  | store va b =>
    obtain ⟨space, hspace, rfl⟩ := Option.map_eq_some_iff.mp h
    exact Or.inl ⟨{ p with space := space }, ⟨id, Or.inr (Or.inl ⟨va, b, hspace⟩)⟩, rfl⟩
  | trap service cause =>
    cases service with
    | sleep =>
      refine Or.inr (Or.inr (Or.inr ⟨some { p.skip with awake := false }, fun r hr => ?_, h⟩))
      obtain rfl := Option.some.inj hr
      rfl
    | wakeup id =>
      rw [act, trap, wakeup, Option.bind_eq_some_iff] at h
      obtain ⟨q, hq, h⟩ := h
      split_ifs at h
      exact Or.inr (Or.inr (Or.inl ⟨id, q, hq, (Option.some.inj h).symm⟩))
    | trapHandler =>
      rw [act, trap] at h
      split_ifs at h
      · refine Or.inr (Or.inr (Or.inr ⟨some p, fun r hr => ?_, ?_⟩))
        · rw [Option.some.inj hr]
        · change (w.become p).yield = some w'
          rw [hsame, h]
      · -- an interrupt of another kind
        exact Or.inl ⟨p, .of_space id rfl, hsame.symm ▸ (Option.some.inj h).symm⟩
      · -- an environment call, with a number that is known or not
        cases hcall : syscallOf cause (p.reg .a7) with
        | some call =>
          rw [hcall] at h
          rcases call_cases h with hgoes | hclone | hyield
          · exact Or.inl hgoes
          · exact Or.inr (Or.inl hclone)
          · exact Or.inr (Or.inr (Or.inr hyield))
        | none =>
          rw [hcall] at h
          exact Or.inl ⟨p.skip, .of_space id rfl, (Option.some.inj h).symm⟩

/-- Whatever happens, the process whose turn it is is there and awake. -/
theorem next_ok (hw : w.Ok) (h : w.next img a = some w') : w'.Ok := by
  obtain ⟨p, hp, hcases⟩ := next_cases h
  have hawake : p.awake = true := by
    obtain ⟨q, hq, hawake⟩ := hw
    rwa [Option.some.inj (hp.symm.trans hq)]
  rcases hcases with ⟨q, hq, rfl⟩ | rfl | ⟨id, q, hq, rfl⟩ | ⟨q, -, hyield⟩
  · exact ⟨q, Function.update_self _ _ _, hq.awake hawake⟩
  · rw [clone]
    cases hvacant : w.vacant with
    | none => exact ⟨_, Function.update_self _ _ _, hawake⟩
    | some d =>
      -- nothing is put in the slot of a process that is there
      have hne : w.current ≠ d := by
        rintro rfl
        rw [vacant_eq_some hvacant] at hp
        cases hp
      refine ⟨p.answer (BitVec.ofNat 64 d), ?_, hawake⟩
      rw [set_current, become_current, set_proc, Function.update_of_ne hne, become_proc,
        Function.update_self]
  · by_cases hid : w.current = id
    · refine ⟨{ q with awake := true }, ?_, rfl⟩
      rw [set_current, become_current, hid, set_proc, Function.update_self]
    · refine ⟨p.skip, ?_, hawake⟩
      rw [set_current, become_current, set_proc, Function.update_of_ne hid, become_proc,
        Function.update_self]
  · obtain ⟨hproc, hnext, -⟩ := yield_eq_some hyield
    rw [awake_iff, ← hproc] at hnext
    exact hnext

end World

end RiscvKernel
