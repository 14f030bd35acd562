import Mathlib.Data.List.Range
import Mathlib.Tactic.Common

/-!
# Executions that may stop for good

A computation that can hang is a value of `Option`: `none` when it never returns. `Outcome
stuck post x` says of such a computation both what its result satisfies and what must have
been the case if it hung, so that one statement gives partial correctness and, from the
negation of `stuck`, that the computation returns. The rules compose it along `bind` and along
counted loops.
-/

/-- If `x` hangs then `stuck`, and if it returns then its result satisfies `post`. -/
def Outcome {α : Type*} (stuck : Prop) (post : α → Prop) : Option α → Prop
  | none => stuck
  | some a => post a

namespace Outcome

variable {α β : Type*} {stuck stuck' : Prop} {post post' : α → Prop} {x : Option α}

/-- A returned result satisfies the postcondition. -/
theorem post_of_eq_some (h : Outcome stuck post x) {a : α} (hx : x = some a) : post a := by
  subst hx
  exact h

/-- A computation that cannot have hung returns. -/
theorem exists_of_not_stuck (h : Outcome stuck post x) (hstuck : ¬ stuck) :
    ∃ a, x = some a ∧ post a := by
  cases x with
  | none => exact absurd h hstuck
  | some a => exact ⟨a, rfl, h⟩

theorem mono (h : Outcome stuck post x) (hs : stuck → stuck') (hp : ∀ a, post a → post' a) :
    Outcome stuck' post' x := by
  cases x with
  | none => exact hs h
  | some a => exact hp a h

/-- Sequencing: the second computation is judged from what the first one left. -/
theorem bind {f : α → Option β} {post' : β → Prop} (h : Outcome stuck post x)
    (hf : ∀ a, post a → Outcome stuck post' (f a)) : Outcome stuck post' (x.bind f) := by
  cases x with
  | none => exact h
  | some a => exact hf a h

/-- A counted loop: what each turn keeps holds at the end, and if the loop hangs some turn
hung. -/
theorem foldlM_range {f : α → ℕ → Option α} {n : ℕ} {a : α} (P : ℕ → α → Prop) (h0 : P 0 a)
    (hstep : ∀ i < n, ∀ b, P i b → Outcome stuck (P (i + 1)) (f b i)) :
    Outcome stuck (P n) ((List.range n).foldlM f a) := by
  induction n with
  | zero => exact h0
  | succ n ih =>
    have hprev := ih fun i hi => hstep i (by omega)
    rw [List.range_succ, List.foldlM_append]
    apply hprev.bind
    intro b hb
    have hlast := hstep n (by omega) b hb
    rw [List.foldlM_cons]
    apply hlast.bind
    intro c hc
    exact hc

end Outcome

/-- The loop `for (p = lo; p < hi; p += 4096)`: a turn for each of `lo`, `lo + 4096`, … below
`hi`. -/
def forPages {σ : Type*} (body : σ → ℕ → Option σ) (lo hi : ℕ) (s : σ) : Option σ :=
  (List.range ((hi - lo + 4095) / 4096)).foldlM (fun s i => body s (lo + 4096 * i)) s

/-- The loop ends at the bound. -/
theorem forPages_of_le {σ : Type*} {body : σ → ℕ → Option σ} {lo hi : ℕ} {s : σ} (h : hi ≤ lo) :
    forPages body lo hi s = some s := by
  rw [forPages, show (hi - lo + 4095) / 4096 = 0 by omega]
  rfl

/-- Before the bound the loop makes a turn and goes on. -/
theorem forPages_of_lt {σ : Type*} {body : σ → ℕ → Option σ} {lo hi : ℕ} {s : σ} (h : lo < hi) :
    forPages body lo hi s = (body s lo).bind (forPages body (lo + 4096) hi) := by
  have hturns : (hi - lo + 4095) / 4096 = (hi - (lo + 4096) + 4095) / 4096 + 1 := by omega
  rw [forPages, hturns, List.range_succ_eq_map, List.foldlM_cons]
  refine congrArg (body s lo).bind (funext fun t => ?_)
  rw [forPages, List.foldlM_map]
  congr 1
  funext t i
  congr 1
  omega

/-- The loop over pages, judged by what each turn keeps. -/
theorem outcome_forPages {σ : Type*} {stuck : Prop} {body : σ → ℕ → Option σ} {lo hi : ℕ} {s : σ}
    (P : ℕ → σ → Prop) (h0 : P 0 s)
    (hstep : ∀ i, lo + 4096 * i < hi → ∀ t, P i t →
      Outcome stuck (P (i + 1)) (body t (lo + 4096 * i))) :
    Outcome stuck (P ((hi - lo + 4095) / 4096)) (forPages body lo hi s) := by
  apply Outcome.foldlM_range P h0
  intro i hi' t ht
  apply hstep i _ t ht
  omega

/-- A counted loop that always returns: what each turn keeps holds at the end. -/
theorem List.foldl_range_induction {α : Type*} {f : α → ℕ → α} {n : ℕ} {a : α}
    (P : ℕ → α → Prop) (h0 : P 0 a) (hstep : ∀ i < n, ∀ b, P i b → P (i + 1) (f b i)) :
    P n ((List.range n).foldl f a) := by
  induction n with
  | zero => exact h0
  | succ n ih =>
    rw [List.range_succ, List.foldl_append]
    exact hstep n (by omega) _ (ih fun i hi => hstep i (by omega))

-- a loop over many pages is never to be unrolled
attribute [irreducible] forPages
