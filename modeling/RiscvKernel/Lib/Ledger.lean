import Mathlib.Algebra.BigOperators.Group.Finset.Basic
import Mathlib.Algebra.Order.BigOperators.Group.Finset
import Mathlib.Algebra.Order.Group.Multiset
import Mathlib.Tactic.Abel

/-!
# Ledgers

A stock of different resources, a multiset without repetitions, and what each of finitely many
owners holds of it. Nothing is held twice when the holdings together are at most the stock
(`Within`), and nothing is lost when they are all of it (`Settled`).

* `Within.notMem_of_ne`: no two owners hold the same resource.
* `Settled.existsUnique_owner`: every resource has exactly one owner, who holds it once.
* `Within.exchange`, `Settled.exchange`: two owners exchange resources and the others keep theirs.
-/

namespace Ledger

variable {ι α : Type*} [Fintype ι]

/-- What the owners hold together is at most the stock. -/
def Within (stock : Multiset α) (held : ι → Multiset α) : Prop := ∑ i, held i ≤ stock

/-- What the owners hold together is the stock. -/
def Settled (stock : Multiset α) (held : ι → Multiset α) : Prop := ∑ i, held i = stock

variable {stock : Multiset α} {held held' : ι → Multiset α} {i j : ι} {x : α}

theorem Settled.within (h : Settled stock held) : Within stock held := le_of_eq h

theorem Within.held_le (h : Within stock held) (i : ι) : held i ≤ stock :=
  (Finset.single_le_sum (fun _ _ => Multiset.zero_le _) (Finset.mem_univ i)).trans h

theorem Within.mem (h : Within stock held) (hx : x ∈ held i) : x ∈ stock :=
  Multiset.mem_of_le (h.held_le i) hx

variable [DecidableEq ι]

/-- What everybody but `i` and `j` holds. -/
def others (held : ι → Multiset α) (i j : ι) : Multiset α :=
  ∑ k ∈ (Finset.univ.erase i).erase j, held k

theorem sum_eq_others (held : ι → Multiset α) (hij : i ≠ j) :
    ∑ k, held k = held i + held j + others held i j := by
  rw [← Finset.add_sum_erase _ _ (Finset.mem_univ i),
    ← Finset.add_sum_erase _ _ (Finset.mem_erase.mpr ⟨hij.symm, Finset.mem_univ j⟩), others,
    add_assoc]

theorem others_congr (h : ∀ k, k ≠ i → k ≠ j → held' k = held k) :
    others held' i j = others held i j := by
  apply Finset.sum_congr rfl
  intro k hk
  rw [Finset.mem_erase, Finset.mem_erase] at hk
  exact h k hk.2.1 hk.1

theorem Within.add_le (h : Within stock held) (hij : i ≠ j) : held i + held j ≤ stock := by
  rw [Within, sum_eq_others held hij] at h
  exact (Multiset.le_add_right _ _).trans h

/-- No two owners hold the same resource. -/
theorem Within.notMem_of_ne (h : Within stock held) (hnd : stock.Nodup) (hij : i ≠ j)
    (hx : x ∈ held i) : x ∉ held j := by
  have hadd := Multiset.nodup_of_le (h.add_le hij) hnd
  exact Multiset.disjoint_left.mp (Multiset.nodup_add.mp hadd).2.2 hx

/-- Two owners exchange resources without gaining any. -/
theorem Within.exchange (h : Within stock held) (hij : i ≠ j)
    (hothers : ∀ k, k ≠ i → k ≠ j → held' k = held k)
    (hle : held' i + held' j ≤ held i + held j) : Within stock held' := by
  rw [Within, sum_eq_others held hij] at h
  rw [Within, sum_eq_others held' hij, others_congr hothers]
  exact (add_le_add_left hle _).trans h

/-- Two owners exchange resources without gaining or losing any. -/
theorem Settled.exchange (h : Settled stock held) (hij : i ≠ j)
    (hothers : ∀ k, k ≠ i → k ≠ j → held' k = held k)
    (heq : held' i + held' j = held i + held j) : Settled stock held' := by
  rw [Settled, sum_eq_others held hij] at h
  rw [Settled, sum_eq_others held' hij, others_congr hothers, heq, h]

variable [DecidableEq α]

/-- Every resource has exactly one owner, who holds it once. -/
theorem Settled.existsUnique_owner (h : Settled stock held) (hnd : stock.Nodup) (hx : x ∈ stock) :
    ∃ i, (held i).count x = 1 ∧ ∀ j, j ≠ i → (held j).count x = 0 := by
  have hmem : x ∈ ∑ i, held i := by rwa [show ∑ i, held i = stock from h]
  obtain ⟨i, -, hi⟩ := Multiset.mem_sum.mp hmem
  have hnodup := Multiset.nodup_of_le (h.within.held_le i) hnd
  refine ⟨i, Multiset.count_eq_one_of_mem hnodup hi, fun j hj => ?_⟩
  rw [Multiset.count_eq_zero]
  exact h.within.notMem_of_ne hnd hj.symm hi

end Ledger
