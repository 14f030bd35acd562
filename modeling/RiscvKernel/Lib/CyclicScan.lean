import Mathlib.Data.Fin.Basic
import Mathlib.Tactic.Common

/-!
# Scanning slots in a circle

A scan looks at the slots after a given one, in circular order, for the first that satisfies a
predicate. `gap i t` is the number of slots strictly between `i` and `t` in that order.

* `scan_eq_some`, `scan_eq_none`: the scan finds the satisfying slot with the smallest gap, and
  fails only when there is none within reach.
* `exists_chosen`: when the position moves to the slot found at each step, with a predicate that
  may be another one each time, a slot that always satisfies it is reached in at most as many
  further steps as its gap. The gap is the measure: a step that does not reach the slot makes it
  smaller.
-/

namespace CyclicScan

variable {n : ℕ}

/-- The next slot, the first one again after the last. -/
def next (i : Fin n) : Fin n := ⟨(i.val + 1) % n, Nat.mod_lt _ i.pos⟩

/-- The first of the `k` slots after `i` that satisfies `p`. -/
def scan (p : Fin n → Bool) : ℕ → Fin n → Option (Fin n)
  | 0, _ => none
  | k + 1, i => if p (next i) then some (next i) else scan p k (next i)

/-- How many slots lie strictly between `i` and `t`, going round from `i`. -/
def gap (i t : Fin n) : ℕ := if i.val < t.val then t.val - i.val - 1 else t.val + n - i.val - 1

theorem next_val (i : Fin n) : (next i).val = if i.val + 1 = n then 0 else i.val + 1 := by
  have hi := i.isLt
  change (i.val + 1) % n = _
  split_ifs with hlast
  · rw [hlast, Nat.mod_self]
  · exact Nat.mod_eq_of_lt (by omega)

theorem gap_lt (i t : Fin n) : gap i t < n := by
  have := i.isLt
  have := t.isLt
  rw [gap]
  split_ifs <;> omega

/-- Every slot other than `i` itself has fewer than `n - 1` slots before it. -/
theorem gap_lt_of_ne {i t : Fin n} (h : t ≠ i) : gap i t + 1 < n := by
  have hne : t.val ≠ i.val := fun heq => h (Fin.ext heq)
  have := i.isLt
  have := t.isLt
  rw [gap]
  split_ifs <;> omega

/-- The next slot is the only one with no slot in between. -/
theorem gap_eq_zero {i t : Fin n} : gap i t = 0 ↔ t = next i := by
  have := i.isLt
  have := t.isLt
  rw [Fin.ext_iff, next_val, gap]
  split_ifs <;> omega

theorem gap_next {i t : Fin n} (h : gap i t ≠ 0) : gap (next i) t + 1 = gap i t := by
  have := i.isLt
  have := t.isLt
  rw [gap, next_val]
  rw [gap] at h ⊢
  split_ifs at h ⊢ <;> omega

/-- A slot that is not further away than `t` is `t` or comes before it. -/
theorem gap_lt_gap {i r t : Fin n} (h : gap i r ≤ gap i t) (hne : r ≠ t) :
    gap r t < gap i t := by
  have hval : r.val ≠ t.val := fun heq => hne (Fin.ext heq)
  have := i.isLt
  have := r.isLt
  have := t.isLt
  rw [gap, gap] at h
  rw [gap, gap]
  split_ifs at h ⊢ <;> omega

/-- The slots in between, up to one of them and behind it. -/
theorem gap_add {i r t : Fin n} (h : gap i r < gap i t) : gap i r + 1 + gap r t = gap i t := by
  have := i.isLt
  have := r.isLt
  have := t.isLt
  rw [gap, gap] at h
  rw [gap, gap, gap]
  split_ifs at h ⊢ <;> omega

theorem gap_inj {i r t : Fin n} : gap i r = gap i t ↔ r = t := by
  have := i.isLt
  have := r.isLt
  have := t.isLt
  rw [Fin.ext_iff, gap, gap]
  split_ifs <;> omega

/-- Going on to a slot before `t` brings no slot behind `t` before it. -/
theorem gap_le_gap {i r t u : Fin n} (hr : gap i r < gap i t) (hu : gap i t ≤ gap i u) :
    gap r t ≤ gap r u := by
  have ht := gap_add hr
  have hu' := gap_add (hr.trans_le hu)
  omega

/-- Going round from a slot, the slot itself comes last. -/
theorem gap_le_self (i t : Fin n) : gap i t ≤ gap i i := by
  have := i.isLt
  have := t.isLt
  rw [gap, gap]
  split_ifs <;> omega

variable {p : Fin n → Bool} {k : ℕ} {i r t : Fin n}

/-- The slot found satisfies the predicate, and none before it does. -/
theorem scan_eq_some (h : scan p k i = some r) :
    p r = true ∧ ∀ t, p t = true → gap i r ≤ gap i t := by
  induction k generalizing i with
  | zero => cases h
  | succ k ih =>
    rw [scan] at h
    split_ifs at h with hp
    · obtain rfl := Option.some.inj h
      refine ⟨hp, fun t _ => ?_⟩
      rw [gap_eq_zero.mpr rfl]
      exact Nat.zero_le _
    · obtain ⟨hr, hmin⟩ := ih h
      refine ⟨hr, fun t ht => ?_⟩
      -- neither the slot found nor `t` is the next one
      have hpos : ∀ u, p u = true → gap i u ≠ 0 := by
        intro u hu hzero
        rw [gap_eq_zero] at hzero
        exact hp (hzero ▸ hu)
      have h1 := gap_next (hpos r hr)
      have h2 := gap_next (hpos t ht)
      have h3 := hmin t ht
      omega

/-- A scan that finds nothing has looked at every slot within reach. -/
theorem scan_eq_none (h : scan p k i = none) (hreach : gap i t < k) : ¬ p t = true := by
  induction k generalizing i with
  | zero => omega
  | succ k ih =>
    rw [scan] at h
    split_ifs at h with hp
    by_cases hzero : gap i t = 0
    · rw [gap_eq_zero] at hzero
      rwa [hzero]
    · have := gap_next hzero
      exact ih h (by omega)

/-- A full scan fails exactly when no slot satisfies the predicate. -/
theorem scan_eq_none_iff : scan p n i = none ↔ ∀ t, ¬ p t = true := by
  refine ⟨fun h t => scan_eq_none h (gap_lt i t), fun h => ?_⟩
  cases hs : scan p n i with
  | none => rfl
  | some r => exact absurd (scan_eq_some hs).1 (h r)

/-- A slot that satisfies the predicate at each step is reached in at most `gap` further steps
after the first. -/
theorem exists_chosen (q : ℕ → Fin n → Bool) (pos : ℕ → Fin n) {N : ℕ}
    (hq : ∀ k < N, q k t = true) (hpos : ∀ k < N, scan (q k) n (pos k) = some (pos (k + 1)))
    (hN : gap (pos 0) t < N) : ∃ k ≤ gap (pos 0) t, pos (k + 1) = t := by
  induction hgap : gap (pos 0) t using Nat.strong_induction_on generalizing q pos N with
  | _ g ih =>
    obtain ⟨-, hmin⟩ := scan_eq_some (hpos 0 (by omega))
    by_cases hreached : pos 1 = t
    · exact ⟨0, Nat.zero_le _, hreached⟩
    · -- the first step made the gap smaller
      have hless : gap (pos 1) t < gap (pos 0) t :=
        gap_lt_gap (hmin t (hq 0 (by omega))) hreached
      obtain ⟨k, hk, hkt⟩ := ih (gap (pos 1) t) (hgap ▸ hless) (fun k => q (k + 1))
        (fun k => pos (k + 1)) (fun k hk => hq (k + 1) (by omega))
        (fun k hk => hpos (k + 1) (by omega)) (show gap (pos 1) t < N - 1 by omega) rfl
      have hk' : k ≤ gap (pos 1) t := hk
      exact ⟨k + 1, by omega, hkt⟩

end CyclicScan
