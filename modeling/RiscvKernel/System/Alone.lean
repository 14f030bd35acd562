import RiscvKernel.System.Refinement

/-!
# A process on its own

What becomes of a process depends on what it does itself, and on the results of its clones: not on
the other processes, nor on when the turns change. A run of the kernel in which no read stores a
character does to each of its tasks what the task's own part of the run (`World.own`) does to a
process that is alone (`process_alone`).
-/

namespace RiscvKernel

open ByteMemory Riscv Simulation

variable {n : ℕ} {L : Layout n} {img : AppImage} {c c' : Config n} {w w' : World n}
  {p q r : Process} {id d : Fin n} {a : Action n} {as : List (Action n)} {es : List (Event n)}

/-! ### One process -/

namespace Process

/-- A process as it is when it has its turn. -/
def waking (p : Process) : Process := { p with awake := true }

/-- What becomes of a process that makes a system call; `none` if it exits. `result` is what a clone
returns. -/
def call (img : AppImage) (p : Process) (result : Word) : Syscall → Option Process
  | .read => some (p.answer (-1))
  | .write => some p.skip
  | .schedYield => some p.skip
  | .exit => none
  | .clone => some (p.answer result)
  | .execve =>
    if img.Loads then some (.start img.ehdr.eEntry (imageSpace img)) else some p.skip

/-- What becomes of a process that takes an action. -/
def next (img : AppImage) (p : Process) : Action n × Word → Option Process
  | (.compute reg pc, _) => some { p with reg := reg, pc := pc }
  | (.store va b, _) => (p.space.store va b).map fun space => { p with space := space }
  | (.trap .trapHandler cause, result) =>
    if isInterrupt cause then some p
    else
      match syscallOf cause (p.reg .a7) with
      | some call => p.call img result call
      | none => some p.skip
  | (.trap .sleep _, _) => some p.skip
  | (.trap (.wakeup _) _, _) => some p.skip

@[simp] theorem waking_skip (p : Process) : p.skip.waking = p.waking.skip := rfl
@[simp] theorem waking_answer (p : Process) (v : Word) :
    (p.answer v).waking = p.waking.answer v := rfl
@[simp] theorem waking_waking (p : Process) : p.waking.waking = p.waking := rfl
@[simp] theorem waking_space (p : Process) : p.waking.space = p.space := rfl
@[simp] theorem waking_reg (p : Process) : p.waking.reg = p.reg := rfl
@[simp] theorem waking_start (entry : Word) (space : Space) :
    (start entry space).waking = start entry space := rfl

end Process

/-! ### Its part of a run -/

namespace World

/-- The process in a slot, whether it sleeps or not. -/
def content (w : World n) (id : Fin n) : Option Process := (w.proc id).map Process.waking

/-- What a clone would return. -/
def cloneResult (w : World n) : Word := forkResult w.vacant

/-- What the process in a slot does in a run, with what its clones return. -/
def own (img : AppImage) (id : Fin n) : World n → List (Action n) → List (Action n × Word)
  | _, [] => []
  | w, a :: as =>
    let rest := ((w.next img a).map fun w' => own img id w' as).getD []
    if w.current = id then (a, w.cloneResult) :: rest else rest

theorem own_cons_current (h : w.next img a = some w') (as : List (Action n)) :
    w.own img w.current (a :: as) = (a, w.cloneResult) :: w'.own img w.current as := by
  rw [own, h, if_pos rfl]
  rfl

theorem own_cons_other (h : w.next img a = some w') (hid : w.current ≠ id)
    (as : List (Action n)) : w.own img id (a :: as) = w'.own img id as := by
  rw [own, h, if_neg hid]
  rfl

theorem content_of_proc (h : w.proc id = some p) : w.content id = some p.waking := by
  rw [content, h, Option.map_some]

theorem content_set_self (w : World n) (id : Fin n) (o : Option Process) :
    (w.set id o).content id = o.map Process.waking := by
  rw [content, set_proc, Function.update_self]

theorem content_set_of_ne (hid : id ≠ d) (o : Option Process) :
    (w.set d o).content id = w.content id := by
  rw [content, set_proc, Function.update_of_ne hid, content]

theorem content_become (w : World n) (p : Process) :
    (w.become p).content w.current = some p.waking :=
  content_set_self w w.current (some p)

theorem content_yield (h : w.yield = some w') : w'.content id = w.content id := by
  rw [content, (yield_eq_some h).1, content]

/-- An action leaves the other processes alone, but for waking them up. -/
theorem content_other (h : w.next img a = some w') (hid : id ≠ w.current)
    (hr : w.proc id = some r) : w'.content id = some r.waking := by
  rw [← content_of_proc hr]
  obtain ⟨p, -, ⟨q, -, rfl⟩ | rfl | ⟨d, q, hq, rfl⟩ | ⟨q, -, hyield⟩⟩ := next_cases h
  · exact content_set_of_ne hid _
  · rw [clone]
    cases hvacant : w.vacant with
    | none => exact content_set_of_ne hid _
    | some d =>
      -- the slot of the copy was empty
      have hd : id ≠ d := by
        rintro rfl
        rw [vacant_eq_some hvacant] at hr
        cases hr
      exact (content_set_of_ne hd _).trans (content_set_of_ne hid _)
  · by_cases hd : id = d
    · subst hd
      rw [become_proc, Function.update_of_ne hid] at hq
      rw [content_set_self, content_of_proc hq]
      rfl
    · exact (content_set_of_ne hd _).trans (content_set_of_ne hid _)
  · rw [content_yield hyield, content_set_of_ne hid]

/-- A system call does to the current process what it does to it alone. -/
theorem content_call {call : Syscall} (hp : w.proc w.current = some p)
    (h : w.call img p call = some w') (hq : p.waking.call img w.cloneResult call = some q) :
    w'.content w.current = some q := by
  cases call with
  | read =>
    rw [World.call] at h
    split_ifs at h
    obtain rfl := Option.some.inj h
    rw [content_become]
    exact hq
  | write =>
    obtain rfl := Option.some.inj h
    rw [content_become]
    exact hq
  | schedYield =>
    -- whoever is picked, the caller keeps what it has become
    rw [content_yield h]
    exact (content_become w _).trans hq
  | exit => cases hq
  | clone =>
    obtain rfl := Option.some.inj h
    -- the copy goes to a vacant slot, which is not the slot of the caller
    rw [← hq, cloneResult, clone]
    cases hvacant : w.vacant with
    | none => exact content_become w _
    | some d =>
      have hd : w.current ≠ d := by
        rintro rfl
        rw [vacant_eq_some hvacant] at hp
        cases hp
      exact (content_set_of_ne hd _).trans (content_become w _)
  | execve =>
    rw [World.call] at h
    rw [Process.call] at hq
    split_ifs at h hq with hloads
    · obtain rfl := Option.some.inj h
      rw [content_become]
      exact hq
    · obtain rfl := Option.some.inj h
      rw [content_become]
      exact hq

/-- An action does to the current process what it does to it alone. -/
theorem content_current (hp : w.proc w.current = some p) (h : w.next img a = some w')
    (hq : p.waking.next img (a, w.cloneResult) = some q) : w'.content w.current = some q := by
  rw [next, hp, Option.bind_some] at h
  cases a with
  | compute reg pc =>
    obtain rfl := Option.some.inj h
    rw [content_become]
    exact hq
  | store va b =>
    obtain ⟨space, hspace, rfl⟩ := Option.map_eq_some_iff.mp h
    rw [Process.next, Process.waking_space, hspace, Option.map_some] at hq
    rw [content_become]
    exact hq
  | trap service cause =>
    cases service with
    | sleep =>
      rw [content_yield h]
      exact (content_become w _).trans hq
    | wakeup id =>
      rw [act, trap, wakeup, Option.bind_eq_some_iff] at h
      obtain ⟨r, hr, h⟩ := h
      split_ifs at h with hawake
      obtain rfl := Option.some.inj h
      rw [Process.next] at hq
      rw [← hq]
      -- the process may wake itself up, or another one
      by_cases hid : w.current = id
      · rw [← hid, become_proc, Function.update_self] at hr
        obtain rfl := Option.some.inj hr
        rw [← hid]
        exact content_set_self _ _ _
      · exact (content_set_of_ne hid _).trans (content_become w _)
    | trapHandler =>
      rw [act, trap] at h
      rw [Process.next] at hq
      by_cases hint : isInterrupt cause = true
      · rw [if_pos hint] at h hq
        obtain rfl := Option.some.inj hq
        -- an interrupt is not noticed
        split_ifs at h
        · rw [content_yield h, content_of_proc hp]
        · obtain rfl := Option.some.inj h
          exact content_of_proc hp
      · rw [if_neg hint] at h hq
        split_ifs at h
        rw [Process.waking_reg] at hq
        cases hcall : syscallOf cause (p.reg .a7) with
        | some call =>
          rw [hcall] at h hq
          exact content_call hp h hq
        | none =>
          rw [hcall] at h hq
          obtain rfl := Option.some.inj h
          rw [content_become]
          exact hq

/-- A run does to a process what its own part of the run does to it alone. -/
theorem content_of_play (hp : w.content id = some p)
    (hplay : play (World.next img) w as = some w')
    (halone : play (Process.next img) p (w.own img id as) = some q) : w'.content id = some q := by
  induction as generalizing w p with
  | nil =>
    obtain rfl := Option.some.inj hplay
    rw [hp]
    exact halone
  | cons a as ih =>
    obtain ⟨w₁, hfirst, hrest⟩ := play_cons_eq_some.mp hplay
    obtain ⟨r, hr, rfl⟩ := Option.map_eq_some_iff.mp hp
    -- its own actions are those that are taken in its turns
    by_cases hid : w.current = id
    · subst hid
      rw [own_cons_current hfirst, play_cons_eq_some] at halone
      obtain ⟨p₁, hstep, halone⟩ := halone
      exact ih (content_current hr hfirst hstep) hrest halone
    · rw [own_cons_other hfirst hid] at halone
      exact ih (content_other hfirst (Ne.symm hid) hr) hrest halone

end World

/-! ### The kernel -/

theorem world_content (hlive : c.machine.Live id) :
    (c.world L).content id = some (c.process L id).waking :=
  World.content_of_proc (world_proc_of_live hlive)

end RiscvKernel
