import RiscvKernel.Lib.Token
import RiscvKernel.Sync.Mutex

/-!
# Mutual exclusion

A mutex is two tokens, one inside the other. The guard word and the lines between an `amoswap`
that takes the guard and the one that releases it are the first (`GuardOk`); `locked` and the
tasks that hold the mutex are the second, which changes hands only at lines that have the first
(`LockedOk`). `owner_id` follows the second with a delay of one line, at which the guard is taken
(`OwnerOk`).

* `MutexOk.lineStep`: a line of the current task keeps the three.
* `reachable_mutexOk`: they hold in every state of every run.
* `mem_holders_iff`: who holds a mutex, in terms of the calls of `mutex_lock` and `mutex_unlock`
  (`Returned`) and of the lines between the two writes of `locked`.
* `mutual_exclusion`: what the mutex promises.
-/

namespace RiscvKernel.Sync

open Function

variable {n : ℕ} {M : Type*} [DecidableEq M] {x x' : Mutex} {holders holders' : Finset (Fin n)}
  {line : Fin n → Option (Line n)} {i : Fin n} {l : Line n} {next : Option (Line n)}

/-- The lines at which the guard is taken. -/
def Line.inGuard : Line n → Bool
  | .lockGuard | .sleepMark | .sleepYield | .unlockGuard => false
  | _ => true

/-- The lines of `mutex_lock`. -/
def Line.inLock : Line n → Bool
  | .lockGuard | .lockRead | .lockTake | .lockOwn | .lockRelease
  | .sleepRelease | .sleepMark | .sleepYield => true
  | _ => false

/-- The lines of `mutex_lock` behind the write `m->locked = 1`, and those of `mutex_unlock` up to
the write `m->locked = 0`. -/
@[simp]
def Line.held : Line n → Bool
  | .lockOwn | .lockRelease | .unlockGuard | .unlockClear => true
  | _ => false

/-- The task has taken the guard. -/
def guarded (line : Fin n → Option (Line n)) (i : Fin n) : Prop :=
  (line i).any Line.inGuard = true

/-- The guard word is 0 or 1, and is a token for the lines it guards. -/
structure GuardOk (x : Mutex) (line : Fin n → Option (Line n)) : Prop where
  range : x.guard = 0 ∨ x.guard = 1
  token : Token (x.guard = 0) (guarded line)

/-- `locked` is 0 or 1, and is a token for the tasks that hold the mutex. -/
structure LockedOk (x : Mutex) (holders : Finset (Fin n)) (line : Fin n → Option (Line n)) :
    Prop where
  range : x.locked = 0 ∨ x.locked = 1
  token : Token (x.locked = 0) (· ∈ holders)
  /-- A task is about to take the mutex, or has just freed it. -/
  free : ∀ i, line i = some .lockTake ∨ line i = some .unlockDisown → x.locked = 0
  /-- A task has taken the mutex, or is about to free it. -/
  mine : ∀ i l, line i = some l → l.held = true → i ∈ holders

/-- `owner_id` is the holder, or -1, but at the one line after a change. -/
structure OwnerOk (x : Mutex) (holders : Finset (Fin n)) (line : Fin n → Option (Line n)) :
    Prop where
  owned : ∀ i ∈ holders, line i ≠ some .lockOwn → x.ownerId = i.val
  disowned : x.locked = 0 → (∀ i, line i ≠ some .unlockDisown) → x.ownerId = -1

/-- The invariant of one mutex. -/
structure MutexOk (x : Mutex) (holders : Finset (Fin n)) (line : Fin n → Option (Line n)) :
    Prop where
  guard : GuardOk x line
  locked : LockedOk x holders line
  owner : OwnerOk x holders line

theorem guarded_update_of_ne {j : Fin n} (h : j ≠ i) :
    guarded (update line i next) j ↔ guarded line j := by
  rw [guarded, guarded, update_of_ne h]

theorem guarded_update_self :
    guarded (update line i next) i ↔ next.any Line.inGuard = true := by
  rw [guarded, update_self]

section Guard

/-- A line that leaves the guard word as it is, from inside to inside or from outside to
outside. -/
theorem GuardOk.stay (h : GuardOk x line) (hguard : x'.guard = x.guard)
    (hsame : next.any Line.inGuard = (line i).any Line.inGuard) :
    GuardOk x' (update line i next) where
  range := by rw [hguard]; exact h.range
  token := by
    refine h.token.congr (by rw [hguard]) fun j => ?_
    by_cases hj : j = i
    · subst hj
      rw [guarded_update_self, hsame, guarded]
    · exact guarded_update_of_ne hj

/-- The `amoswap` of `spin_lock`: it takes the guard if the old value is 0, else the task stays
where it is. -/
theorem GuardOk.spinLock {l' : Line n} (h : GuardOk x line) (hat : line i = some l)
    (hin : l'.inGuard = true) :
    GuardOk { x with guard := 1 } (update line i (some (if x.guard = 0 then l' else l))) := by
  by_cases hfree : x.guard = 0
  · refine ⟨Or.inr rfl, h.token.take hfree (i := i) ?_ (fun j hj => guarded_update_of_ne hj) ?_⟩
    · rw [guarded_update_self]
      simp [hfree, hin]
    · simp
  · rw [if_neg hfree]
    refine h.stay ?_ (by simp [hat])
    rcases h.range with h0 | h1
    · exact absurd h0 hfree
    · exact h1.symm

/-- The `amoswap` of `spin_unlock`. -/
theorem GuardOk.spinUnlock (h : GuardOk x line) (hat : line i = some l)
    (hin : l.inGuard = true) (hout : next.any Line.inGuard = false) :
    GuardOk { x with guard := 0 } (update line i next) where
  range := Or.inl rfl
  token := by
    refine h.token.give (i := i) ?_ ?_ (fun j hj => guarded_update_of_ne hj) rfl
    · rw [guarded, hat]
      exact hin
    · rw [guarded_update_self, hout]
      exact Bool.false_ne_true

/-- Nobody else is at a line that has the guard. -/
theorem GuardOk.alone (h : GuardOk x line) (hat : line i = some l) (hin : l.inGuard = true)
    {j : Fin n} {k : Line n} (hj : line j = some k) (hk : k.inGuard = true) : j = i :=
  h.token.unique j i (by rw [guarded, hj]; exact hk) (by rw [guarded, hat]; exact hin)

end Guard

section Locked

/-- A line that changes neither `locked` nor who holds the mutex. -/
theorem LockedOk.stay (h : LockedOk x holders line) (hlocked : x'.locked = x.locked)
    (hfree : next = some .lockTake ∨ next = some .unlockDisown → x.locked = 0)
    (hmine : ∀ l, next = some l → l.held = true → i ∈ holders) :
    LockedOk x' holders (update line i next) where
  range := by rw [hlocked]; exact h.range
  token := h.token.congr (by rw [hlocked]) fun _ => Iff.rfl
  free j hj := by
    rw [hlocked]
    by_cases hji : j = i
    · subst hji
      exact hfree (by simpa using hj)
    · exact h.free j (by simpa [hji] using hj)
  mine j l hj hl := by
    by_cases hji : j = i
    · subst hji
      exact hmine l (by simpa using hj) hl
    · exact h.mine j l (by simpa [hji] using hj) hl

/-- `m->locked = 1`. -/
theorem LockedOk.take (h : LockedOk x holders line) (hg : GuardOk x line)
    (hat : line i = some .lockTake) :
    LockedOk { x with locked := 1 } (insert i holders) (update line i (some .lockOwn)) where
  range := Or.inr rfl
  token := by
    refine h.token.take (h.free i (Or.inl hat)) (i := i) (Finset.mem_insert_self _ _) ?_ ?_
    · intro j hj
      simp [hj]
    · simp
  free j hj := by
    have hji : j ≠ i := by
      rintro rfl
      simp at hj
    rw [update_of_ne hji] at hj
    -- both lines have the guard, which `i` has
    rcases hj with hj | hj
    · exact absurd (hg.alone hat rfl hj rfl) hji
    · exact absurd (hg.alone hat rfl hj rfl) hji
  mine j l hj hl := by
    by_cases hji : j = i
    · simp [hji]
    · rw [update_of_ne hji] at hj
      exact Finset.mem_insert_of_mem (h.mine j l hj hl)

/-- `m->locked = 0`. -/
theorem LockedOk.clear (h : LockedOk x holders line) (hat : line i = some .unlockClear) :
    LockedOk { x with locked := 0 } (holders.erase i) (update line i (some .unlockDisown)) := by
  have hi : i ∈ holders := h.mine i _ hat rfl
  refine ⟨Or.inl rfl, ?_, fun _ _ => rfl, fun j l hj hl => ?_⟩
  · refine h.token.give hi (Finset.notMem_erase _ _) ?_ rfl
    intro j hj
    simp [hj]
  · have hji : j ≠ i := by
      rintro rfl
      rw [update_self] at hj
      obtain rfl := Option.some.inj hj
      simp [Line.held] at hl
    rw [update_of_ne hji] at hj
    exact absurd (h.token.unique j i (h.mine j l hj hl) hi) hji

end Locked

section Owner

/-- A line that changes neither the fields nor who holds the mutex. -/
theorem OwnerOk.stay (h : OwnerOk x holders line) (hlocked : x'.locked = x.locked)
    (howner : x'.ownerId = x.ownerId) (hown : line i ≠ some .lockOwn)
    (hdisown : line i ≠ some .unlockDisown) : OwnerOk x' holders (update line i next) where
  owned j hj hne := by
    rw [howner]
    refine h.owned j hj ?_
    by_cases hji : j = i
    · rwa [hji]
    · rwa [update_of_ne hji] at hne
  disowned hzero hne := by
    rw [howner]
    refine h.disowned (by rwa [← hlocked]) fun j => ?_
    by_cases hji : j = i
    · rwa [hji]
    · have := hne j
      rwa [update_of_ne hji] at this

end Owner

/-- `mutex_lock` or `mutex_unlock` is called: nothing changes but the caller's place. -/
theorem MutexOk.call (h : MutexOk x holders line) (hout : line i = none)
    (hl : l = .lockGuard ∨ l = .unlockGuard ∧ i ∈ holders) :
    MutexOk x holders (update line i (some l)) where
  guard := by
    refine h.guard.stay rfl ?_
    rcases hl with rfl | ⟨rfl, -⟩ <;> simp [hout, Line.inGuard]
  locked := by
    refine h.locked.stay rfl ?_ ?_
    · rcases hl with rfl | ⟨rfl, -⟩ <;> simp
    · rcases hl with rfl | ⟨rfl, hi⟩
      · simp [Line.held]
      · exact fun _ _ _ => hi
  owner := h.owner.stay rfl rfl (by simp [hout]) (by simp [hout])

/-- The loop of `mutex_unlock` goes on with a read or ends; it stays inside the guard. -/
theorem wakeLoop_cases (k : ℕ) :
    (∃ i : Fin n, i.val = k ∧ (wakeLoop k : Line n) = .wakeRead i) ∨
      n ≤ k ∧ (wakeLoop k : Line n) = .unlockRelease := by
  by_cases h : k < n
  · exact Or.inl ⟨⟨k, h⟩, rfl, by simp [wakeLoop, h]⟩
  · exact Or.inr ⟨Nat.le_of_not_lt h, by simp [wakeLoop, h]⟩

/-- A line in the middle of the guarded code that changes no field. -/
theorem MutexOk.goOn {l' : Line n} (h : MutexOk x holders line) (hat : line i = some l)
    (hsame : l'.inGuard = l.inGuard) (hown : l ≠ .lockOwn) (hdisown : l ≠ .unlockDisown)
    (hfree : l' = .lockTake → x.locked = 0)
    (hplain : l' ≠ .unlockDisown ∧ l'.held = false) :
    MutexOk x holders (update line i (some l')) where
  guard := h.guard.stay rfl (by simp [hat, hsame])
  locked := by
    refine h.locked.stay rfl ?_ ?_
    · rintro (hl | hl)
      · exact hfree (Option.some.inj hl)
      · exact absurd (Option.some.inj hl) hplain.1
    · rintro _ ⟨⟩ hheld
      rw [hplain.2] at hheld
      contradiction
  owner := h.owner.stay rfl rfl (by simp [hat, hown]) (by simp [hat, hdisown])

/-- A line with an `amoswap`, which changes the guard word only. -/
theorem MutexOk.swap {g : ℤ} (h : MutexOk x holders line) (hat : line i = some l)
    (hguard : GuardOk { x with guard := g } (update line i next)) (hown : l ≠ .lockOwn)
    (hdisown : l ≠ .unlockDisown)
    (hplain : next ≠ some .lockTake ∧ next ≠ some .unlockDisown)
    (hmine : ∀ l, next = some l → l.held = true → i ∈ holders) :
    MutexOk { x with guard := g } holders (update line i next) where
  guard := hguard
  locked := by
    refine h.locked.stay rfl ?_ ?_
    · rintro (hl | hl)
      · exact absurd hl hplain.1
      · exact absurd hl hplain.2
    · exact hmine
  owner := h.owner.stay rfl rfl (by simp [hat, hown]) (by simp [hat, hdisown])

/-- Every line of the current task keeps the invariant of its mutex. -/
theorem MutexOk.lineStep {s s' : Sched n} (h : MutexOk x holders line)
    (hat : line s.currentTask = some l) (hrun : lineStep x s l = some (x', s', next)) :
    MutexOk x' (l.holders s.currentTask holders) (update line s.currentTask next) := by
  cases l with
  | lockGuard =>
    obtain ⟨rfl, -, rfl⟩ := by simpa [lineStep] using hrun
    refine h.swap hat (h.guard.spinLock hat rfl) nofun nofun ?_ ?_
    · split_ifs <;> simp
    · split_ifs <;> simp
  | lockRead =>
    obtain ⟨rfl, -, rfl⟩ := by simpa [lineStep] using hrun
    by_cases hzero : x.locked = 0
    · rw [if_pos hzero]
      exact h.goOn hat rfl nofun nofun (fun _ => hzero) (by simp)
    · rw [if_neg hzero]
      exact h.goOn hat rfl nofun nofun nofun (by simp)
  | lockTake =>
    obtain ⟨rfl, -, rfl⟩ := by simpa [lineStep] using hrun
    refine ⟨h.guard.stay rfl (by simp [hat, Line.inGuard]), h.locked.take h.guard hat, ?_⟩
    refine ⟨fun j hj hne => ?_, fun hone => absurd hone (by simp)⟩
    rcases Finset.mem_insert.mp hj with rfl | hj
    · simp at hne
    · -- nobody held the mutex before
      exact absurd hj (h.locked.token.free_iff.mp (h.locked.free _ (Or.inl hat)) j)
  | lockOwn =>
    obtain ⟨rfl, -, rfl⟩ := by simpa [lineStep] using hrun
    -- the task holds the mutex, so nobody else does, and it writes its own number
    have hi := h.locked.mine _ _ hat rfl
    refine ⟨h.guard.stay rfl (by simp [hat, Line.inGuard]), ?_, ?_⟩
    · exact h.locked.stay rfl (by simp) (fun _ _ _ => hi)
    · refine ⟨fun j hj _ => ?_, fun hzero => absurd hzero (h.locked.token.not_free hi)⟩
      rw [h.locked.token.unique j _ hj hi]
  | lockRelease =>
    obtain ⟨rfl, -, rfl⟩ := by simpa [lineStep] using hrun
    exact h.swap hat (h.guard.spinUnlock hat rfl rfl) nofun nofun (by simp) (by simp)
  | sleepRelease =>
    obtain ⟨rfl, -, rfl⟩ := by simpa [lineStep] using hrun
    exact h.swap hat (h.guard.spinUnlock hat rfl rfl) nofun nofun (by simp) (by simp)
  | sleepMark =>
    obtain ⟨rfl, -, rfl⟩ := by simpa [lineStep] using hrun
    exact h.goOn hat rfl nofun nofun nofun (by simp)
  | sleepYield =>
    obtain ⟨-, rfl, rfl⟩ := by simpa [lineStep] using hrun
    exact h.goOn hat rfl nofun nofun nofun (by simp)
  | unlockGuard =>
    obtain ⟨rfl, -, rfl⟩ := by simpa [lineStep] using hrun
    have hi := h.locked.mine _ _ hat rfl
    refine h.swap hat (h.guard.spinLock hat rfl) nofun nofun ?_ (fun _ _ _ => hi)
    split_ifs <;> simp
  | unlockClear =>
    obtain ⟨rfl, -, rfl⟩ := by simpa [lineStep] using hrun
    refine ⟨h.guard.stay rfl (by simp [hat, Line.inGuard]), h.locked.clear hat, ?_⟩
    -- the task that held the mutex no longer does; the owner is stale until the next line
    have hi := h.locked.mine _ _ hat rfl
    refine ⟨fun j hj _ => ?_, fun _ hne => absurd (update_self _ _ _) (hne s.currentTask)⟩
    obtain ⟨hji, hj⟩ := Finset.mem_erase.mp hj
    exact absurd (h.locked.token.unique j _ hj hi) hji
  | unlockDisown =>
    obtain ⟨rfl, -, rfl⟩ := by simpa [lineStep] using hrun
    -- the mutex is free, so writing -1 to the owner is right whoever comes next
    have hzero := h.locked.free _ (Or.inr hat)
    refine ⟨h.guard.stay rfl ?_, h.locked.stay rfl ?_ ?_, ?_⟩
    · rcases wakeLoop_cases (n := n) 0 with ⟨k, -, hk⟩ | ⟨-, hk⟩ <;>
        simp [hat, hk, Line.inGuard]
    · exact fun _ => hzero
    · rcases wakeLoop_cases (n := n) 0 with ⟨k, -, hk⟩ | ⟨-, hk⟩ <;> simp [hk]
    · exact ⟨fun j hj _ => absurd hj (h.locked.token.free_iff.mp hzero j), fun _ _ => rfl⟩
  | wakeRead k =>
    obtain ⟨rfl, -, rfl⟩ := by simpa [lineStep] using hrun
    split_ifs with hsleeping
    · exact h.goOn hat rfl nofun nofun nofun (by simp)
    · rcases wakeLoop_cases (n := n) (k + 1) with ⟨k', -, hk'⟩ | ⟨-, hk'⟩ <;> rw [hk']
      · exact h.goOn hat rfl nofun nofun nofun (by simp)
      · exact h.goOn hat rfl nofun nofun nofun (by simp)
  | wakeWrite k =>
    obtain ⟨rfl, -, rfl⟩ := by simpa [lineStep] using hrun
    rcases wakeLoop_cases (n := n) (k + 1) with ⟨k', -, hk'⟩ | ⟨-, hk'⟩ <;> rw [hk']
    · exact h.goOn hat rfl nofun nofun nofun (by simp)
    · exact h.goOn hat rfl nofun nofun nofun (by simp)
  | unlockRelease =>
    obtain ⟨rfl, -, rfl⟩ := by simpa [lineStep] using hrun
    exact h.swap hat (h.guard.spinUnlock hat rfl rfl) nofun nofun (by simp) (by simp)

/-- `mutex_init`. -/
theorem mutexOk_initial : MutexOk mutexInit (∅ : Finset (Fin n)) fun _ => none where
  guard := ⟨Or.inl rfl, .init rfl (by simp [guarded])⟩
  locked := ⟨Or.inl rfl, .init rfl (by simp), by simp, by simp⟩
  owner := ⟨by simp, fun _ _ => rfl⟩

/-- The invariant of every mutex holds in every state of every run. -/
theorem reachable_mutexOk {s : State n M} (hs : Reachable s) (m : M) :
    MutexOk (s.mutexes m) (s.holders m) (s.line m) := by
  induction hs with
  | initial => exact mutexOk_initial
  | step e _ hstep ih =>
    cases step_seen hstep m with
    | idle hmutex hholders hline => rwa [hmutex, hholders, hline]
    | lock _ hmutex hholders hout hline =>
      rw [hmutex, hholders, hline]
      exact ih.call (State.line_eq_none hout m) (Or.inl rfl)
    | unlock _ hmutex hholders hout hheld hline =>
      rw [hmutex, hholders, hline]
      exact ih.call (State.line_eq_none hout m) (Or.inr ⟨rfl, hheld⟩)
    | line l x sched next _ hat hrun _ hmutex hholders hline =>
      rw [hmutex, hholders, hline]
      exact ih.lineStep hat hrun

/-- Task `i` has returned from `mutex_lock(m)` and has not called `mutex_unlock(m)` since. -/
inductive Returned (m : M) (i : Fin n) : State n M → Prop
  /-- The task, at a line of `mutex_lock(m)`, leaves the code. -/
  | lock {s s' : State n M} {l : Line n} (hs : Reachable s) (hcur : s.sched.currentTask = i)
    (hat : s.pc i = some (m, l)) (hl : l.inLock = true) (hstep : step s .act = some s')
    (hout : s'.pc i = none) : Returned m i s'
  /-- Anything happens but a call of `mutex_unlock(m)` by the task. -/
  | later {s s' : State n M} (e : Event M) (h : Returned m i s) (hstep : step s e = some s')
    (hcall : ¬ (e = .unlock m ∧ s.sched.currentTask = i)) : Returned m i s'

section Returned

variable {s s' : State n M} {m : M}

/-- `mutex_lock` leads to another of its lines, or it ends after `spin_unlock`. -/
theorem lineStep_inLock {x x' : Mutex} {s s' : Sched n} {l : Line n} {next : Option (Line n)}
    (h : lineStep x s l = some (x', s', next)) (hl : l.inLock = true) :
    (∃ l', next = some l' ∧ l'.inLock = true) ∨ l = .lockRelease ∧ next = none := by
  cases l <;> simp only [lineStep, Option.map_eq_some_iff, Option.some.injEq, Prod.mk.injEq] at h
  case lockRelease => exact Or.inr ⟨rfl, h.2.2.symm⟩
  case sleepYield =>
    obtain ⟨_, -, -, -, rfl⟩ := h
    exact Or.inl ⟨_, rfl, rfl⟩
  case lockGuard | lockRead =>
    obtain ⟨-, -, rfl⟩ := h
    refine Or.inl ⟨_, rfl, ?_⟩
    split_ifs <;> rfl
  case lockTake | lockOwn | sleepRelease | sleepMark =>
    obtain ⟨-, -, rfl⟩ := h
    exact Or.inl ⟨_, rfl, rfl⟩
  all_goals cases hl

/-- A line in the middle of `mutex_lock(m)` or of `mutex_unlock(m)` is run, or the last one. -/
theorem step_act {l : Line n} (hat : s.pc s.sched.currentTask = some (m, l))
    (h : step s .act = some s') : ∃ x sched next,
      lineStep (s.mutexes m) s.sched l = some (x, sched, next) ∧
      s'.pc = update s.pc s.sched.currentTask (next.map fun l => (m, l)) ∧
      s'.holders m = l.holders s.sched.currentTask (s.holders m) := by
  simp only [step, hat, Option.map_eq_some_iff] at h
  obtain ⟨⟨x, sched, next⟩, hrun, rfl⟩ := h
  exact ⟨x, sched, next, hrun, rfl, update_self _ _ _⟩

/-- The line at which a task leaves `mutex_lock` is its last one. -/
theorem leaves_lock {l : Line n} (hat : s.pc s.sched.currentTask = some (m, l))
    (hl : l.inLock = true) (h : step s .act = some s')
    (hout : s'.pc s.sched.currentTask = none) :
    l = .lockRelease ∧ s'.holders m = s.holders m := by
  obtain ⟨x, sched, next, hrun, hpc, hholders⟩ := step_act hat h
  rcases lineStep_inLock hrun hl with ⟨l', rfl, -⟩ | ⟨rfl, -⟩
  · simp [hpc] at hout
  · exact ⟨rfl, hholders⟩

/-- A step is one of the current task: the others stay at their lines, and hold what they
held. -/
theorem step_other {e : Event M} (h : step s e = some s') (hi : i ≠ s.sched.currentTask) :
    s'.line m i = s.line m i ∧ (i ∈ s'.holders m ↔ i ∈ s.holders m) := by
  cases step_seen h m with
  | idle _ hholders hline => exact ⟨by rw [hline], by rw [hholders]⟩
  | lock _ _ hholders _ hline => exact ⟨by rw [hline, update_of_ne hi], by rw [hholders]⟩
  | unlock _ _ hholders _ _ hline => exact ⟨by rw [hline, update_of_ne hi], by rw [hholders]⟩
  | line l x sched next _ _ _ _ _ hholders hline =>
    refine ⟨by rw [hline, update_of_ne hi], ?_⟩
    rw [hholders]
    cases l <;> simp [Line.holders, hi]

/-- A task that has returned from `mutex_lock(m)` holds `m`, and until it calls `mutex_unlock(m)`
it is at no line of that function. -/
theorem Returned.holds (h : Returned m i s) :
    Reachable s ∧ i ∈ s.holders m ∧ ∀ l, s.line m i = some l → l.inLock = true := by
  induction h with
  | @lock s s' l hs hcur hat hl hstep hout =>
    subst hcur
    -- `spin_unlock` at the end of `mutex_lock` comes after the write of `locked`
    obtain ⟨rfl, hholders⟩ := leaves_lock hat hl hstep hout
    have hheld := (reachable_mutexOk hs m).locked.mine _ _ (State.line_eq_some.mpr hat) rfl
    exact ⟨hs.step _ hstep, hholders ▸ hheld, by simp [State.line_eq_none hout]⟩
  | @later s s' e _ hstep hcall ih =>
    obtain ⟨hs, hheld, hin⟩ := ih
    refine ⟨hs.step e hstep, ?_⟩
    by_cases hi : i = s.sched.currentTask
    · subst hi
      cases step_seen hstep m with
      | idle _ hholders hline =>
        rw [hholders, hline]
        exact ⟨hheld, hin⟩
      | lock _ _ hholders _ hline =>
        rw [hholders, hline]
        exact ⟨hheld, by simp [Line.inLock]⟩
      | unlock he _ _ _ _ _ => exact absurd ⟨he, rfl⟩ hcall
      | line l x sched next _ hat hrun _ _ hholders hline =>
        -- a line of another call of `mutex_lock`, which takes nothing away
        rw [hholders, hline, update_self]
        have hl := hin l hat
        refine ⟨?_, fun l' hl' => ?_⟩
        · cases l <;> first | exact hheld | exact Finset.mem_insert_self _ _ | cases hl
        · rcases lineStep_inLock hrun hl with ⟨l'', rfl, hl''⟩ | ⟨-, rfl⟩
          · exact Option.some.inj hl' ▸ hl''
          · cases hl'
    · obtain ⟨hline, hholders⟩ := step_other hstep hi
      rw [hline]
      exact ⟨hholders.mpr hheld, hin⟩

/-- The caller of `mutex_unlock(m)` is at its first line. -/
theorem line_unlock (h : step s (.unlock m) = some s') :
    s'.line m s.sched.currentTask = some .unlockGuard := by
  simp only [step] at h
  split_ifs at h
  obtain rfl := Option.some.inj h
  simp [State.line_eq_some]

/-- The current task runs a line of the mutex and holds it afterwards. -/
theorem held_of_line {l : Line n} {x : Mutex} {sched : Sched n} {next : Option (Line n)}
    (hs : Reachable s) (hat : s.line m s.sched.currentTask = some l)
    (hstep : step s .act = some s')
    (hrun : lineStep (s.mutexes m) s.sched l = some (x, sched, next))
    (hheld : s.sched.currentTask ∈ l.holders s.sched.currentTask (s.holders m))
    (hbefore : s.sched.currentTask ∈ s.holders m →
      Returned m s.sched.currentTask s ∨ l.held = true) :
    Returned m s.sched.currentTask s' ∨ ∃ l', next = some l' ∧ l'.held = true := by
  cases l with
  | lockTake | lockOwn =>
    obtain ⟨-, -, rfl⟩ := by simpa [lineStep] using hrun
    exact Or.inr ⟨_, rfl, rfl⟩
  | lockRelease =>
    -- here `mutex_lock` returns
    obtain ⟨-, -, rfl⟩ := by simpa [lineStep] using hrun
    obtain ⟨_, _, next, hrun, hpc, -⟩ := step_act (State.line_eq_some.mp hat) hstep
    obtain ⟨-, -, rfl⟩ := by simpa [lineStep] using hrun
    exact Or.inl (.lock hs rfl (State.line_eq_some.mp hat) rfl hstep (by simp [hpc]))
  | unlockGuard =>
    obtain ⟨-, -, rfl⟩ := by simpa [lineStep] using hrun
    refine Or.inr ⟨_, rfl, ?_⟩
    split_ifs <;> rfl
  | unlockClear => exact absurd hheld (Finset.notMem_erase _ _)
  | _ =>
    -- the task has returned from an earlier call
    exact Or.inl (((hbefore hheld).resolve_right nofun).later _ hstep nofun)

/-- The holder of a mutex is the task that has returned from `mutex_lock` and has not called
`mutex_unlock` since, or is between the write of `locked` and the end of `mutex_lock`, or between
the start of `mutex_unlock` and the write of `locked`. -/
theorem mem_holders_iff (hs : Reachable s) : i ∈ s.holders m ↔
    Returned m i s ∨ ∃ l, s.line m i = some l ∧ l.held = true := by
  refine ⟨fun hi => ?_, ?_⟩
  · induction hs with
    | initial sched _ => simp [initial] at hi
    | @step s s' e hs hstep ih =>
      by_cases hcall : e = .unlock m ∧ s.sched.currentTask = i
      · obtain ⟨rfl, rfl⟩ := hcall
        exact Or.inr ⟨_, line_unlock hstep, rfl⟩
      -- a task that has returned stays so
      have hlater (h : Returned m i s) : Returned m i s' := h.later e hstep hcall
      by_cases hcur : i = s.sched.currentTask
      · subst hcur
        have hcaller (hout : s.pc s.sched.currentTask = none)
            (hi : s.sched.currentTask ∈ s.holders m) : Returned m s.sched.currentTask s' := by
          refine hlater ((ih hi).resolve_right ?_)
          simp [State.line_eq_none hout]
        cases step_seen hstep m with
        | idle _ hholders hline =>
          rw [hline]
          exact (ih (hholders ▸ hi)).imp_left hlater
        | lock _ _ hholders hout _ => exact Or.inl (hcaller hout (hholders ▸ hi))
        | unlock _ _ hholders hout _ _ => exact Or.inl (hcaller hout (hholders ▸ hi))
        | line l x sched next hact hat hrun _ _ hholders hline =>
          subst hact
          rw [hline, update_self]
          refine held_of_line hs hat hstep hrun (hholders ▸ hi) fun hbefore => ?_
          simpa [hat] using ih hbefore
      · obtain ⟨hline, hholders⟩ := step_other hstep hcur
        rw [hline]
        exact (ih (hholders.mp hi)).imp_left hlater
  · rintro (h | ⟨l, hat, hl⟩)
    · exact h.holds.2.1
    · exact (reachable_mutexOk hs m).locked.mine i l hat hl

end Returned

/-- In every reachable state the tasks that hold a mutex are those that have returned from
`mutex_lock` and have not called `mutex_unlock` since, and those between one of these calls and its
write of `locked`; at most one task holds it, `locked` is 1 exactly when some task holds it, and
while the guard is free `owner_id` names the holder, or is -1. -/
theorem mutual_exclusion {s : State n M} (hs : Reachable s) (m : M) :
    (∀ i, i ∈ s.holders m ↔ Returned m i s ∨ ∃ l, s.line m i = some l ∧ l.held = true) ∧
      (∀ i ∈ s.holders m, ∀ j ∈ s.holders m, i = j) ∧
      ((s.mutexes m).locked = 1 ↔ ∃ i, i ∈ s.holders m) ∧
      ((s.mutexes m).guard = 0 →
        (∀ i ∈ s.holders m, (s.mutexes m).ownerId = i.val) ∧
          (s.holders m = ∅ → (s.mutexes m).ownerId = -1)) := by
  have h := reachable_mutexOk hs m
  refine ⟨fun i => mem_holders_iff hs, fun i hi j hj => h.locked.token.unique i j hi hj, ?_,
    fun hguard => ?_⟩
  · rw [← h.locked.token.not_free_iff]
    rcases h.locked.range with hzero | hone
    · simp [hzero]
    · simp [hone]
  · -- with the guard free no task is at a line that has it
    have hnone : ∀ (i : Fin n) (l : Line n), l.inGuard = true → s.line m i ≠ some l := by
      intro i l hl hat
      refine h.guard.token.free_iff.mp hguard i ?_
      rw [guarded, hat]
      exact hl
    refine ⟨fun i hi => h.owner.owned i hi (hnone i _ rfl), fun hempty => ?_⟩
    refine h.owner.disowned (h.locked.token.free_iff.mpr fun i hi => ?_) fun i => hnone i _ rfl
    simp [hempty] at hi

/-- Two tasks, of which the first one runs. -/
def twoTasks : State 2 Unit := initial ⟨0, fun i => if i = 0 then .running else .ready⟩

/-- Task 0 locks the mutex; task 1 finds it locked and releases the guard. -/
def contend : List (Event Unit) :=
  [.lock (), .act, .act, .act, .act, .act, .tick, .lock (), .act, .act, .act]

/-- Task 0 unlocks the mutex; a sleeper to wake takes one more line. -/
def unlockAll : List (Event Unit) := [.unlock (), .act, .act, .act, .act, .act, .act]

/-- Task 1 sleeps until task 0 unlocks the mutex, and then gets it. -/
def handOver : List (Event Unit) :=
  contend ++ [.act, .act] ++ unlockAll ++ [.act, .tick, .act, .act, .act, .act, .act]

/-- The mutex goes from task 0 to task 1, which has returned from `mutex_lock` and is the owner. -/
theorem mutual_exclusion_two : ∃ s, run twoTasks handOver = some s ∧ Returned () 1 s ∧
    ¬ Returned () 0 s ∧ (s.mutexes ()).locked = 1 ∧ (s.mutexes ()).ownerId = 1 := by
  obtain ⟨s, hrun, hguard, hheld, hout⟩ : ∃ s, run twoTasks handOver = some s ∧
      (s.mutexes ()).guard = 0 ∧ s.holders () = {1} ∧ s.pc 1 = none := ⟨_, rfl, rfl, rfl, rfl⟩
  obtain ⟨hcalls, -, hlocked, howner⟩ :=
    mutual_exclusion (Reachable.run (.initial _ rfl) hrun) ()
  have hmem : 1 ∈ s.holders () := by simp [hheld]
  refine ⟨s, hrun, ((hcalls 1).mp hmem).resolve_right ?_, fun h => ?_, hlocked.mpr ⟨1, hmem⟩,
    (howner hguard).1 1 hmem⟩
  · simp [State.line_eq_none hout]
  · have hzero := (hcalls 0).mpr (Or.inl h)
    simp [hheld] at hzero

end RiscvKernel.Sync
