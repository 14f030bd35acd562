import Mathlib.Tactic.Common

/-!
# Programs that record what they access

A `Recorded` computation may fail, and keeps a list of the accesses it has made, also of those
before a failure. `Recorded.Runs P x r` says that it ends as the plain computation `r` does, and
that every access is one of `P`. The rules compose it along `bind` and along loops, so that a
program with the record is compared with the one without it, and its accesses are bounded, in one
pass.

* `Runs.bind`, `Runs.andThen`: sequencing.
* `Runs.foldlM`, `Runs.foldl`, `Runs.forM`: loops over a list.
* `orFail`: a computation that may hang, as one that may fail.
-/

universe u

/-- A computation with the accesses it makes, the first one first. -/
structure Recorded (E ε : Type*) (α : Type u) where
  log : List E
  result : Except ε α

namespace Recorded

variable {E ε ι : Type*} {α β σ : Type u} {P : E → Prop} {r : Except ε α} {l : List ι}

instance : Monad (Recorded E ε) where
  pure a := ⟨[], .ok a⟩
  bind x f := match x.result with
    | .error e => ⟨x.log, .error e⟩
    | .ok a => ⟨x.log ++ (f a).log, (f a).result⟩

/-- A computation that accesses nothing. -/
def lift (r : Except ε α) : Recorded E ε α := ⟨[], r⟩

/-- The computation ends as `r` does, and every access it makes is one of `P`. -/
structure Runs (P : E → Prop) (x : Recorded E ε α) (r : Except ε α) : Prop where
  result : x.result = r
  within : ∀ e ∈ x.log, P e

theorem Runs.pure (a : α) : Runs P (pure a : Recorded E ε α) (.ok a) := ⟨rfl, nofun⟩

theorem Runs.lift (r : Except ε α) : Runs P (lift r : Recorded E ε α) r := ⟨rfl, nofun⟩

/-- Sequencing: the second computation runs from what the first one returns. -/
theorem Runs.bind {x : Recorded E ε α} {f : α → Recorded E ε β} {g : α → Except ε β}
    (h : Runs P x r) (hf : ∀ a, r = .ok a → Runs P (f a) (g a)) : Runs P (x >>= f) (r >>= g) := by
  obtain ⟨rfl, hx⟩ := h
  obtain ⟨log, result⟩ := x
  cases result with
  | error e => exact ⟨rfl, hx⟩
  | ok a =>
    obtain ⟨hresult, hlog⟩ := hf a rfl
    refine ⟨hresult, fun e he => ?_⟩
    rcases List.mem_append.mp he with he | he
    · exact hx e he
    · exact hlog e he

/-- Sequencing after a computation that returns. -/
theorem Runs.andThen {x : Recorded E ε α} {f : α → Recorded E ε β} {a : α} {r : Except ε β}
    (h : Runs P x (.ok a)) (hf : Runs P (f a) r) : Runs P (x >>= f) r := by
  refine h.bind (g := fun _ => r) ?_
  rintro _ ⟨⟩
  exact hf

/-- A loop over a list, turn by turn. -/
theorem Runs.foldlM {f : σ → ι → Recorded E ε σ} {g : σ → ι → Except ε σ}
    (h : ∀ i ∈ l, ∀ s, Runs P (f s i) (g s i)) (s : σ) : Runs P (l.foldlM f s) (l.foldlM g s) := by
  induction l generalizing s with
  | nil => exact Runs.pure s
  | cons i l ih =>
    rw [List.foldlM_cons, List.foldlM_cons]
    refine (h i List.mem_cons_self s).bind fun t _ => ?_
    exact ih (fun j hj => h j (List.mem_cons_of_mem _ hj)) t

/-- A loop over a list whose turns always return. -/
theorem Runs.foldl {f : σ → ι → Recorded E ε σ} {g : σ → ι → σ}
    (h : ∀ i ∈ l, ∀ s, Runs P (f s i) (.ok (g s i))) (s : σ) :
    Runs P (l.foldlM f s) (.ok (l.foldl g s)) := by
  induction l generalizing s with
  | nil => exact Runs.pure s
  | cons i l ih =>
    rw [List.foldlM_cons, List.foldl_cons]
    exact (h i List.mem_cons_self s).andThen (ih (fun j hj => h j (List.mem_cons_of_mem _ hj)) _)

/-- A loop of checks over a list. -/
theorem Runs.forM {f : ι → Recorded E ε PUnit} {g : ι → Except ε PUnit}
    (h : ∀ i ∈ l, Runs P (f i) (g i)) : Runs P (l.forM f) (l.forM g) := by
  induction l with
  | nil => exact Runs.pure _
  | cons i l ih =>
    exact (h i List.mem_cons_self).bind fun _ _ => ih fun j hj => h j (List.mem_cons_of_mem _ hj)

/-- A computation that may hang, as one that may fail with `e`. -/
def orFail (e : ε) (o : Option α) : Except ε α := o.elim (.error e) .ok

theorem orFail_bind (e : ε) (o : Option α) (f : α → Option β) :
    orFail e (o.bind f) = orFail e o >>= fun a => orFail e (f a) := by
  cases o <;> rfl

theorem orFail_foldlM (e : ε) (f : σ → ι → Option σ) (s : σ) :
    orFail e (l.foldlM f s) = l.foldlM (fun s i => orFail e (f s i)) s := by
  induction l generalizing s with
  | nil => rfl
  | cons i l ih =>
    rw [List.foldlM_cons, List.foldlM_cons]
    refine (orFail_bind e _ _).trans ?_
    simp only [ih]

end Recorded
