import RiscvKernel.Lib.Memory

/-!
# Intrusive lists of pages

A list of pages that has no storage of its own: the first word of each page holds the address
of the next one, and address `0` ends the list. `Chain m head l` says that following the links
of `m` from `head` visits exactly the pages `l`, in this order.

* `Chain.unique`: the memory determines the list.
* `Chain.eqOff`: a change that touches no page of the list keeps it.
* `Chain.push`: linking a page in front of the list.
-/

namespace FreeList

open ByteMemory

/-- Following the links stored in the pages from `head` visits `l` and ends at null. -/
def Chain (m : Mem) : ℕ → List ℕ → Prop
  | head, [] => head = 0
  | head, p :: l => head = p ∧ p ≠ 0 ∧ Chain m (loadWord m p).toNat l

namespace Chain

variable {m m' : Mem} {head p : ℕ} {l : List ℕ} {S : Multiset ℕ}

theorem nil_iff : Chain m 0 l ↔ l = [] := by
  cases l with
  | nil => simp [Chain]
  | cons p l =>
    simp only [Chain, reduceCtorEq, iff_false]
    rintro ⟨rfl, h, -⟩
    exact h rfl

/-- A list that does not start at null has its start as first page. -/
theorem exists_cons (h : Chain m head l) (hne : head ≠ 0) :
    ∃ l', l = head :: l' ∧ Chain m (loadWord m head).toNat l' := by
  cases l with
  | nil => exact absurd h hne
  | cons p l' =>
    obtain ⟨rfl, -, htail⟩ := h
    exact ⟨l', rfl, htail⟩

/-- The links determine the pages they visit. -/
theorem unique {l' : List ℕ} (h : Chain m head l) (h' : Chain m head l') : l = l' := by
  induction l generalizing head l' with
  | nil =>
    obtain rfl : head = 0 := h
    exact (nil_iff.mp h').symm
  | cons p l ih =>
    obtain ⟨rfl, hp, htail⟩ := h
    obtain ⟨l'', rfl, htail'⟩ := h'.exists_cons hp
    rw [ih htail htail']

/-- A change that touches no page of the list keeps the list. -/
theorem eqOff (h : Chain m head l) (hm : EqOff S m m') (hal : ∀ p ∈ l, PageAligned p)
    (hdisj : ∀ p ∈ l, p ∉ S) : Chain m' head l := by
  induction l generalizing head with
  | nil => exact h
  | cons p l ih =>
    obtain ⟨rfl, hp, htail⟩ := h
    refine ⟨rfl, hp, ?_⟩
    rw [hm.loadWord_head_eq (hal _ List.mem_cons_self) (hdisj _ List.mem_cons_self)]
    exact ih htail (fun q hq => hal q (List.mem_cons_of_mem _ hq))
      fun q hq => hdisj q (List.mem_cons_of_mem _ hq)

/-- Linking a page that is not on the list in front of it. -/
theorem push (h : Chain m head l) (hal : ∀ q ∈ l, PageAligned q) (hp : PageAligned p)
    (hp0 : p ≠ 0) (hnot : p ∉ l) (hhead : head < 2 ^ 64) :
    Chain (storeWord m p (BitVec.ofNat 64 head)) p (p :: l) := by
  refine ⟨rfl, hp0, ?_⟩
  rw [loadWord_storeWord, BitVec.toNat_ofNat, Nat.mod_eq_of_lt hhead]
  apply h.eqOff (eqOff_storeWord_head m hp _) hal
  intro q hq
  rw [Multiset.mem_singleton]
  rintro rfl
  exact hnot hq

end Chain

end FreeList
