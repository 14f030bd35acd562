import Mathlib.Tactic.Common

/-!
# Tokens

A token is either free or had by exactly one of a family of holders. A lock word and the pieces
of code that run between taking and releasing the lock are a token; so are a `locked` field and
the threads that own what it protects.

* `Token.take`, `Token.give`: a holder takes a free token, a holder gives it back.
* `Token.congr`: nothing that the token is about changes.
-/

variable {ι : Type*} {free free' : Prop} {has has' : ι → Prop} {i : ι}

/-- The token is free exactly when nobody has it, and at most one holder has it. -/
structure Token (free : Prop) (has : ι → Prop) : Prop where
  unique : ∀ i j, has i → has j → i = j
  free_iff : free ↔ ∀ i, ¬ has i

namespace Token

/-- A free token that nobody has. -/
theorem init (hfree : free) (hnone : ∀ i, ¬ has i) : Token free has where
  unique i _ hi := absurd hi (hnone i)
  free_iff := ⟨fun _ => hnone, fun _ => hfree⟩

theorem not_free (h : Token free has) (hi : has i) : ¬ free :=
  fun hfree => h.free_iff.mp hfree i hi

/-- A token that is not free is had by someone. -/
theorem not_free_iff (h : Token free has) : ¬ free ↔ ∃ i, has i := by
  rw [h.free_iff, not_forall]
  simp only [not_not]

/-- Who has the token and whether it is free do not change. -/
theorem congr (h : Token free has) (hfree : free' ↔ free) (hhas : ∀ i, has' i ↔ has i) :
    Token free' has' where
  unique i j hi hj := h.unique i j ((hhas i).mp hi) ((hhas j).mp hj)
  free_iff := by simp only [hfree, hhas, h.free_iff]

/-- `i` takes a free token. -/
theorem take (h : Token free has) (hfree : free) (hi : has' i)
    (hother : ∀ j, j ≠ i → (has' j ↔ has j)) (hfree' : ¬ free') : Token free' has' := by
  have hone : ∀ j, has' j → j = i := by
    intro j hj
    by_contra hne
    exact h.free_iff.mp hfree j ((hother j hne).mp hj)
  refine ⟨fun j k hj hk => (hone j hj).trans (hone k hk).symm, ?_⟩
  exact ⟨fun h' => absurd h' hfree', fun hnone => absurd hi (hnone i)⟩

/-- `i` gives the token back. -/
theorem give (h : Token free has) (hi : has i) (hi' : ¬ has' i)
    (hother : ∀ j, j ≠ i → (has' j ↔ has j)) (hfree' : free') : Token free' has' := by
  refine init hfree' fun j hj => ?_
  by_cases hne : j = i
  · subst hne
    exact hi' hj
  · exact hne (h.unique j i ((hother j hne).mp hj) hi)

end Token
