import Mathlib.Logic.Relation
import Mathlib.Tactic.Common

/-!
# Executions with loops

What a program with unbounded loops does, as a function of the number of turns that its loops may
take. A computation may run forever, and it may do what the language leaves undefined; in both
cases it has no result, however many turns are allowed (`Returns`).

* `returns_pure`, `returns_bind`, `not_returns_undefined`: composition.
* `returns_loop`: the first turn of a loop, and the rest.
* `exists_returns_loop`: a loop with an invariant and a variant returns.
* `Returns.of_loop`: what an invariant says about a loop that returns.
* `Reaches`: the states between the turns of a loop.
-/

/-- A computation with a result in `α`. Its result does not depend on the number of turns that are
allowed. -/
structure Execution (α : Type) where
  run : ℕ → Option α
  mono : ∀ k a, run k = some a → run (k + 1) = some a

/-- What one turn of a loop comes to: another turn, or the result of the loop. -/
inductive Turn (σ ρ : Type)
  | again (s : σ)
  | leave (r : ρ)

namespace Execution

variable {α β σ ρ : Type} {c : Execution α} {a b : α}

theorem run_mono (c : Execution α) {k l : ℕ} (hkl : k ≤ l) (h : c.run k = some a) :
    c.run l = some a := by
  induction hkl with
  | refl => exact h
  | step _ ih => exact c.mono _ a ih

/-- The computation has the result `a`. -/
def Returns (c : Execution α) (a : α) : Prop := ∃ k, c.run k = some a

/-- There is at most one result. -/
theorem Returns.unique (ha : c.Returns a) (hb : c.Returns b) : a = b := by
  obtain ⟨k, hk⟩ := ha
  obtain ⟨l, hl⟩ := hb
  have hk' := c.run_mono (Nat.le_add_right k l) hk
  have hl' := c.run_mono (Nat.le_add_left l k) hl
  exact Option.some.inj (hk'.symm.trans hl')

/-! ### Composition -/

/-- A computation without a result. -/
def undefined : Execution α := ⟨fun _ => none, fun _ _ h => h⟩

instance : Monad Execution where
  pure a := ⟨fun _ => some a, fun _ _ h => h⟩
  bind c f := ⟨fun k => (c.run k).bind fun a => (f a).run k, by
    intro k b h
    obtain ⟨a, ha, hb⟩ := Option.bind_eq_some_iff.mp h
    exact Option.bind_eq_some_iff.mpr ⟨a, c.mono k a ha, (f a).mono k b hb⟩⟩

@[simp]
theorem not_returns_undefined : ¬ (undefined : Execution α).Returns a := by
  rintro ⟨k, h⟩
  cases h

@[simp]
theorem returns_pure : (pure a : Execution α).Returns b ↔ a = b :=
  ⟨fun ⟨_, h⟩ => Option.some.inj h, fun h => ⟨0, congrArg some h⟩⟩

@[simp]
theorem returns_bind {f : α → Execution β} {y : β} :
    (c >>= f).Returns y ↔ ∃ a, c.Returns a ∧ (f a).Returns y := by
  constructor
  · rintro ⟨k, h⟩
    obtain ⟨a, ha, hy⟩ := Option.bind_eq_some_iff.mp h
    exact ⟨a, ⟨k, ha⟩, ⟨k, hy⟩⟩
  · -- both parts return if the larger number of turns is allowed
    rintro ⟨a, ⟨k, ha⟩, ⟨l, hy⟩⟩
    refine ⟨k + l, Option.bind_eq_some_iff.mpr ⟨a, c.run_mono (Nat.le_add_right k l) ha, ?_⟩⟩
    exact (f a).run_mono (Nat.le_add_left l k) hy

theorem Returns.bind {f : α → Execution β} {y : β} (h : c.Returns a) (hf : (f a).Returns y) :
    (c >>= f).Returns y := returns_bind.mpr ⟨a, h, hf⟩

/-! ### Loops -/

/-- A loop that may take `k` turns. -/
def loopRun (turn : σ → Execution (Turn σ ρ)) : ℕ → σ → Option ρ
  | 0, _ => none
  | k + 1, s => ((turn s).run k).bind fun
    | .again s' => loopRun turn k s'
    | .leave r => some r

theorem loopRun_mono (turn : σ → Execution (Turn σ ρ)) (k : ℕ) (s : σ) (r : ρ)
    (h : loopRun turn k s = some r) : loopRun turn (k + 1) s = some r := by
  induction k generalizing s with
  | zero => cases h
  | succ k ih =>
    rw [loopRun, Option.bind_eq_some_iff] at h ⊢
    obtain ⟨t, ht, h⟩ := h
    refine ⟨t, (turn s).mono k t ht, ?_⟩
    cases t with
    | again s' => exact ih s' h
    | leave r' => exact h

/-- A loop: turns are taken until one comes to a result. -/
def loop (turn : σ → Execution (Turn σ ρ)) (s : σ) : Execution ρ :=
  ⟨fun k => loopRun turn k s, fun k r => loopRun_mono turn k s r⟩

variable {turn : σ → Execution (Turn σ ρ)} {s s' : σ} {r : ρ}

/-- A loop takes one turn, and then it is left or goes on. -/
theorem returns_loop : (loop turn s).Returns r ↔
    (∃ s', (turn s).Returns (.again s') ∧ (loop turn s').Returns r) ∨
      (turn s).Returns (.leave r) := by
  constructor
  · rintro ⟨k, h⟩
    cases k with
    | zero => cases h
    | succ k =>
      obtain ⟨t, ht, h⟩ := Option.bind_eq_some_iff.mp h
      cases t with
      | again s' => exact Or.inl ⟨s', ⟨k, ht⟩, ⟨k, h⟩⟩
      | leave r' =>
        obtain rfl : r' = r := Option.some.inj h
        exact Or.inr ⟨k, ht⟩
  · rintro (⟨s', ⟨k, ht⟩, ⟨l, h⟩⟩ | ⟨k, ht⟩)
    · refine ⟨k + l + 1, Option.bind_eq_some_iff.mpr ⟨.again s', ?_, ?_⟩⟩
      · exact (turn s).run_mono (Nat.le_add_right k l) ht
      · exact (loop turn s').run_mono (Nat.le_add_left l k) h
    · exact ⟨k + 1, Option.bind_eq_some_iff.mpr ⟨.leave r, ht, rfl⟩⟩

theorem Returns.again (h : (turn s).Returns (.again s')) (hr : (loop turn s').Returns r) :
    (loop turn s).Returns r := returns_loop.mpr (Or.inl ⟨s', h, hr⟩)

theorem Returns.leave (h : (turn s).Returns (.leave r)) : (loop turn s).Returns r :=
  returns_loop.mpr (Or.inr h)

/-- What a loop returns after a turn. -/
theorem Returns.of_again (h : (loop turn s).Returns r) (hs : (turn s).Returns (.again s')) :
    (loop turn s').Returns r := by
  rcases returns_loop.mp h with ⟨s₁, hs₁, hr⟩ | hleave
  · cases hs₁.unique hs
    exact hr
  · cases hleave.unique hs

/-- A loop whose turns keep `P` and make the variant smaller, or leave with a result in `Q`,
returns such a result. -/
theorem exists_returns_loop (variant : σ → ℕ) (P : σ → Prop) (Q : ρ → Prop)
    (hturn : ∀ s, P s → (∃ s', (turn s).Returns (.again s') ∧ P s' ∧ variant s' < variant s) ∨
      ∃ r, (turn s).Returns (.leave r) ∧ Q r) (hs : P s) :
    ∃ r, (loop turn s).Returns r ∧ Q r := by
  induction hn : variant s using Nat.strongRecOn generalizing s with
  | ind n ih =>
    rcases hturn s hs with ⟨s', hs', hP, hlt⟩ | ⟨r, hr, hQ⟩
    · obtain ⟨r, hr, hQ⟩ := ih _ (hn ▸ hlt) hP rfl
      exact ⟨r, hs'.again hr, hQ⟩
    · exact ⟨r, hr.leave, hQ⟩

/-! ### Between the turns -/

/-- The loop comes from `s` to `s'` in some number of turns. -/
def Reaches (turn : σ → Execution (Turn σ ρ)) : σ → σ → Prop :=
  Relation.ReflTransGen fun s s' => (turn s).Returns (.again s')

/-- What turns keep holds in every state that a loop reaches. -/
theorem Reaches.invariant (P : σ → Prop)
    (hturn : ∀ s s', P s → (turn s).Returns (.again s') → P s') (h : Reaches turn s s') (hs : P s) :
    P s' := by
  induction h with
  | refl => exact hs
  | tail _ hstep ih => exact hturn _ _ ih hstep

/-- A loop returns the same from every state that it reaches. -/
theorem Reaches.returns_iff (h : Reaches turn s s') :
    (loop turn s).Returns r ↔ (loop turn s').Returns r := by
  induction h with
  | refl => rfl
  | tail _ hstep ih => exact ih.trans ⟨fun h => h.of_again hstep, fun h => hstep.again h⟩

/-- A loop that returns leaves from a state that it reaches. -/
theorem Returns.exists_reaches (h : (loop turn s).Returns r) :
    ∃ s', Reaches turn s s' ∧ (turn s').Returns (.leave r) := by
  obtain ⟨k, h⟩ := h
  induction k generalizing s with
  | zero => cases h
  | succ k ih =>
    obtain ⟨t, ht, h⟩ := Option.bind_eq_some_iff.mp h
    cases t with
    | again s₁ =>
      obtain ⟨s', hreach, hleave⟩ := ih h
      exact ⟨s', hreach.head ⟨k, ht⟩, hleave⟩
    | leave r' =>
      obtain rfl : r' = r := Option.some.inj h
      exact ⟨s, .refl, ⟨k, ht⟩⟩

/-- A loop that returns has a result in `Q`, if its turns keep `P` and leave with such a result. -/
theorem Returns.of_loop (P : σ → Prop) (Q : ρ → Prop)
    (hturn : ∀ s s', P s → (turn s).Returns (.again s') → P s')
    (hleave : ∀ s r, P s → (turn s).Returns (.leave r) → Q r)
    (h : (loop turn s).Returns r) (hs : P s) : Q r := by
  obtain ⟨s', hreach, hr⟩ := h.exists_reaches
  exact hleave s' r (hreach.invariant P hturn hs) hr

end Execution
