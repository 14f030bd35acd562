import Mathlib.Data.List.Basic
import Mathlib.Logic.Relation

/-!
# Simulation by an abstract machine

A transition system with labelled steps, and a deterministic machine that takes actions or refuses
them (`next` returns `none`). An abstraction function maps the states of the system that satisfy an
invariant to states of the machine, so that each step of the system is one action of the machine, or
none if its label is hidden (`Simulates`).

* `Simulates.path`: a run of the system is a run of the machine on the actions of its labels.
* `Simulates.abs_eq`: the actions alone determine the state of the machine that a run ends in.
* `Simulates.safe`: what the actions of the machine keep holds of all states that the system
  reaches.
* `Answers.play`: if the system can also follow each action, it can follow every run of the machine.
-/

namespace Simulation

variable {σ τ α β : Type*}

/-! ### Runs -/

/-- A run, with the labels of its steps. -/
inductive Path (step : σ → α → σ → Prop) : σ → List α → σ → Prop
  | nil (s : σ) : Path step s [] s
  | cons {s s' s'' : σ} {a : α} {as : List α} (hstep : step s a s') (hrest : Path step s' as s'') :
    Path step s (a :: as) s''

/-- The machine takes a list of actions, if it refuses none of them. -/
def play (next : τ → β → Option τ) (t : τ) (bs : List β) : Option τ := bs.foldlM next t

variable {step : σ → α → σ → Prop} {next : τ → β → Option τ} {s s' s'' : σ} {t t' : τ} {a : α}
  {b : β} {as as' : List α} {bs bs' : List β}

namespace Path

theorem single (hstep : step s a s') : Path step s [a] s' := .cons hstep (.nil s')

theorem append (h : Path step s as s') (h' : Path step s' as' s'') :
    Path step s (as ++ as') s'' := by
  induction h with
  | nil => exact h'
  | cons hstep _ ih => exact .cons hstep (ih h')

/-- What each step keeps holds at the end of a run. -/
theorem invariant {P : σ → Prop} (hP : ∀ s a s', P s → step s a s' → P s')
    (h : Path step s as s') (hs : P s) : P s' := by
  induction h with
  | nil => exact hs
  | cons hstep _ ih => exact ih (hP _ _ _ hs hstep)

/-- If no step makes a measure larger, and the steps with some labels make it smaller, there are at
most as many of these as the measure allows. -/
theorem countP_add_le {P : σ → Prop} {f : σ → ℕ} {p : α → Bool}
    (hP : ∀ s a s', P s → step s a s' → P s') (hle : ∀ s a s', P s → step s a s' → f s' ≤ f s)
    (hlt : ∀ s a s', P s → step s a s' → p a = true → f s' < f s) (h : Path step s as s')
    (hs : P s) : as.countP p + f s' ≤ f s := by
  induction h with
  | nil => exact Nat.le_of_eq (Nat.zero_add _)
  | cons hstep _ ih =>
    have hrest := ih (hP _ _ _ hs hstep)
    rw [List.countP_cons]
    split_ifs with ha
    · have := hlt _ _ _ hs hstep ha
      omega
    · have := hle _ _ _ hs hstep
      omega

/-- If the steps with some labels take one from a measure, others add at most `b` to it, and no
other step makes it larger, then the first are paid for by the second. -/
theorem countP_add_le_mul {P : σ → Prop} {f : σ → ℕ} {p q : α → Bool} {b : ℕ}
    (hP : ∀ s a s', P s → step s a s' → P s')
    (hf : ∀ s a s', P s → step s a s' →
      f s' + (if p a then 1 else 0) ≤ f s + if q a then b else 0)
    (h : Path step s as s') (hs : P s) : as.countP p + f s' ≤ f s + b * as.countP q := by
  induction h with
  | nil => simp
  | cons hstep _ ih =>
    have hfirst := hf _ _ _ hs hstep
    have hrest := ih (hP _ _ _ hs hstep)
    rw [List.countP_cons, List.countP_cons]
    split_ifs at hfirst ⊢ <;> simp only [Nat.mul_add, Nat.mul_one] <;> omega

/-- A run whose labels are not looked at. -/
theorem exists_iff_reflTransGen :
    (∃ as, Path step s as s') ↔ Relation.ReflTransGen (fun s s' => ∃ a, step s a s') s s' := by
  constructor
  · rintro ⟨as, h⟩
    induction h with
    | nil => exact .refl
    | cons hstep _ ih => exact .head ⟨_, hstep⟩ ih
  · intro h
    induction h using Relation.ReflTransGen.head_induction_on with
    | refl => exact ⟨[], .nil s'⟩
    | head hstep _ ih =>
      obtain ⟨a, hstep⟩ := hstep
      obtain ⟨as, hrest⟩ := ih
      exact ⟨a :: as, .cons hstep hrest⟩

end Path

@[simp]
theorem play_nil (next : τ → β → Option τ) (t : τ) : play next t [] = some t := rfl

theorem play_cons (next : τ → β → Option τ) (t : τ) (b : β) (bs : List β) :
    play next t (b :: bs) = (next t b).bind fun t => play next t bs := rfl

theorem play_cons_eq_some :
    play next t (b :: bs) = some t' ↔ ∃ t₁, next t b = some t₁ ∧ play next t₁ bs = some t' := by
  rw [play_cons, Option.bind_eq_some_iff]

/-- What each action keeps holds at the end of a run of the machine. -/
theorem play_invariant {P : τ → Prop} (hP : ∀ t b t', P t → next t b = some t' → P t')
    (h : play next t bs = some t') (ht : P t) : P t' := by
  induction bs generalizing t with
  | nil =>
    obtain rfl := Option.some.inj h
    exact ht
  | cons b bs ih =>
    obtain ⟨t₁, hfirst, hrest⟩ := play_cons_eq_some.mp h
    exact ih hrest (hP _ _ _ ht hfirst)

/-! ### Simulation -/

/-- From states that satisfy `inv`, every step of the system is the action of its label, and a step
with a hidden label is none. -/
structure Simulates (step : σ → α → σ → Prop) (next : τ → β → Option τ) (label : α → Option β)
    (inv : σ → Prop) (abs : σ → τ) : Prop where
  keeps : ∀ {s a s'}, inv s → step s a s' → inv s'
  hidden : ∀ {s a s'}, inv s → step s a s' → label a = none → abs s' = abs s
  visible : ∀ {s a s' b}, inv s → step s a s' → label a = some b → next (abs s) b = some (abs s')

/-- From the states of the system that are `ready`, every action of the machine can be followed by
steps that have it as their only visible label, up to the next ready state. -/
structure Answers (step : σ → α → σ → Prop) (next : τ → β → Option τ) (label : α → Option β)
    (ready : σ → Prop) (abs : σ → τ) : Prop where
  answer : ∀ {s b t}, ready s → next (abs s) b = some t →
    ∃ as s', Path step s as s' ∧ as.filterMap label = [b] ∧ ready s' ∧ abs s' = t

variable {label : α → Option β} {inv ready : σ → Prop} {abs : σ → τ}

namespace Simulates

theorem inv_of_path (h : Simulates step next label inv abs) (hs : inv s)
    (hpath : Path step s as s') : inv s' :=
  hpath.invariant (fun _ _ _ => h.keeps) hs

/-- A run of the system is a run of the machine. -/
theorem path (h : Simulates step next label inv abs) (hs : inv s) (hpath : Path step s as s') :
    play next (abs s) (as.filterMap label) = some (abs s') := by
  induction hpath with
  | nil => rfl
  | cons hstep _ ih =>
    rename_i s s₁ _ a as _
    have hrest := ih (h.keeps hs hstep)
    cases hlabel : label a with
    | none =>
      rw [List.filterMap_cons_none hlabel, ← h.hidden hs hstep hlabel]
      exact hrest
    | some b =>
      rw [List.filterMap_cons_some hlabel, play_cons, h.visible hs hstep hlabel]
      exact hrest

/-- Two runs with the same actions that start alike end alike. -/
theorem abs_eq {s₁ s₂ s₁' s₂' : σ} (h : Simulates step next label inv abs) (h₁ : inv s₁)
    (h₂ : inv s₂) (hpath₁ : Path step s₁ as s₁') (hpath₂ : Path step s₂ as' s₂')
    (hstart : abs s₁ = abs s₂) (hlabels : as.filterMap label = as'.filterMap label) :
    abs s₁' = abs s₂' := by
  have hplay₁ := h.path h₁ hpath₁
  rw [hstart, hlabels, h.path h₂ hpath₂] at hplay₁
  exact (Option.some.inj hplay₁).symm

/-- What the actions of the machine keep holds of every state that the system reaches. -/
theorem safe {P : τ → Prop} (h : Simulates step next label inv abs)
    (hP : ∀ t b t', P t → next t b = some t' → P t') (hs : inv s) (hstart : P (abs s))
    (hpath : Path step s as s') : P (abs s') :=
  play_invariant hP (h.path hs hpath) hstart

end Simulates

/-- A system that answers each action follows every run of the machine. -/
theorem Answers.play (h : Answers step next label ready abs) (hs : ready s)
    (hplay : play next (abs s) bs = some t) :
    ∃ as s', Path step s as s' ∧ as.filterMap label = bs ∧ ready s' ∧ abs s' = t := by
  induction bs generalizing s with
  | nil =>
    obtain rfl := Option.some.inj hplay
    exact ⟨[], s, .nil s, rfl, hs, rfl⟩
  | cons b bs ih =>
    obtain ⟨t₁, hfirst, hrest⟩ := play_cons_eq_some.mp hplay
    obtain ⟨as₁, s₁, hpath₁, hlabels₁, hs₁, rfl⟩ := h.answer hs hfirst
    obtain ⟨as₂, s₂, hpath₂, hlabels₂, hs₂, rfl⟩ := ih hs₁ hrest
    refine ⟨as₁ ++ as₂, s₂, hpath₁.append hpath₂, ?_, hs₂, rfl⟩
    rw [List.filterMap_append, hlabels₁, hlabels₂, List.singleton_append]

end Simulation
