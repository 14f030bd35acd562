import Mathlib.Algebra.Group.Nat.Defs
import Mathlib.Data.Multiset.AddSub
import Mathlib.Order.Interval.Set.Defs
import Mathlib.Tactic.Common

/-!
# Byte-addressed memory

A memory is a total function from addresses to bytes. Words are stored little-endian. The
second half of the module is about 4 KiB pages: two memories agree off a multiset of pages
(`EqOff`) when every byte of every other page is the same in both, and everything read from
a page outside the multiset is then the same too.

* `loadWord_storeWord`: a word read back at the address where it was stored is that word.
* `EqOff.loadWord_eq`: a word of an untouched page reads the same.
* `foldl_storeByte`: what a loop that stores bytes at consecutive addresses leaves behind.
-/

namespace ByteMemory

/-- A byte of memory. -/
abbrev Byte := BitVec 8

/-- A 64-bit machine word. -/
abbrev Word := BitVec 64

/-- A memory: the byte at every address. -/
abbrev Mem := ℕ → Byte

/-! ### Bytes and little-endian words -/

/-- Store one byte. -/
def storeByte (m : Mem) (a : ℕ) (b : Byte) : Mem := fun x => if x = a then b else m x

/-- The number whose `k` little-endian bytes start at address `a`. -/
def leNat (m : Mem) (a : ℕ) : ℕ → ℕ
  | 0 => 0
  | k + 1 => (m a).toNat + 256 * leNat m (a + 1) k

/-- Load the 64-bit word at address `a`. -/
def loadWord (m : Mem) (a : ℕ) : Word := BitVec.ofNat 64 (leNat m a 8)

/-- Store a 64-bit word at address `a`. -/
def storeWord (m : Mem) (a : ℕ) (v : Word) : Mem :=
  fun x => if a ≤ x ∧ x < a + 8 then BitVec.ofNat 8 (v.toNat / 256 ^ (x - a)) else m x

@[simp]
theorem storeByte_same (m : Mem) (a : ℕ) (b : Byte) : storeByte m a b a = b := by
  simp [storeByte]

theorem storeByte_of_ne (m : Mem) {a x : ℕ} (b : Byte) (h : x ≠ a) :
    storeByte m a b x = m x := by
  simp [storeByte, h]

/-- `leNat` depends on the `k` bytes it reads and on no others. -/
theorem leNat_congr {m m' : Mem} {a k : ℕ} (h : ∀ i < k, m' (a + i) = m (a + i)) :
    leNat m' a k = leNat m a k := by
  induction k generalizing a with
  | zero => rfl
  | succ k ih =>
    have h0 : m' a = m a := by simpa using h 0 (by omega)
    have htail : leNat m' (a + 1) k = leNat m (a + 1) k := by
      apply ih
      intro i hi
      have := h (i + 1) (by omega)
      rwa [show a + (i + 1) = a + 1 + i by omega] at this
    rw [leNat, leNat, h0, htail]

/-- Reading `k` bytes that are the base-256 digits of `x` gives `x` modulo `256 ^ k`. -/
theorem leNat_digits {m : Mem} {a k x : ℕ}
    (h : ∀ i < k, (m (a + i)).toNat = x / 256 ^ i % 256) :
    leNat m a k = x % 256 ^ k := by
  induction k generalizing a x with
  | zero => simp [leNat, Nat.mod_one]
  | succ k ih =>
    have h0 : (m a).toNat = x % 256 := by simpa using h 0 (by omega)
    have htail : leNat m (a + 1) k = x / 256 % 256 ^ k := by
      apply ih
      intro i hi
      have := h (i + 1) (by omega)
      rwa [show a + (i + 1) = a + 1 + i by omega, Nat.pow_succ', ← Nat.div_div_eq_div_mul] at this
    rw [leNat, h0, htail, Nat.pow_succ', Nat.mod_mul]

/-- `leNat` of zero bytes is zero. -/
theorem leNat_eq_zero {m : Mem} {a k : ℕ} (h : ∀ i < k, m (a + i) = 0) : leNat m a k = 0 := by
  have hdigits : ∀ i < k, (m (a + i)).toNat = 0 / 256 ^ i % 256 := by
    intro i hi
    simp [h i hi]
  simpa using leNat_digits hdigits

theorem loadWord_congr {m m' : Mem} {a : ℕ} (h : ∀ i < 8, m' (a + i) = m (a + i)) :
    loadWord m' a = loadWord m a := by
  rw [loadWord, loadWord, leNat_congr h]

theorem loadWord_eq_zero {m : Mem} {a : ℕ} (h : ∀ i < 8, m (a + i) = 0) : loadWord m a = 0#64 := by
  rw [loadWord, leNat_eq_zero h]

/-- Storing a word leaves every byte outside its eight bytes alone. -/
theorem storeWord_of_notMem (m : Mem) {a x : ℕ} (v : Word) (h : x < a ∨ a + 8 ≤ x) :
    storeWord m a v x = m x := by
  rw [storeWord, if_neg]
  omega

/-- A word read back at the address where it was stored is that word. -/
@[simp]
theorem loadWord_storeWord (m : Mem) (a : ℕ) (v : Word) : loadWord (storeWord m a v) a = v := by
  have hdigits : ∀ i < 8, (storeWord m a v (a + i)).toNat = v.toNat / 256 ^ i % 256 := by
    intro i hi
    have hin : a ≤ a + i ∧ a + i < a + 8 := by omega
    simp [storeWord, hin]
  rw [loadWord, leNat_digits hdigits]
  apply BitVec.eq_of_toNat_eq
  have := v.isLt
  rw [BitVec.toNat_ofNat]
  omega

/-- A word stored elsewhere does not change the word at `b`. -/
theorem loadWord_storeWord_of_disjoint (m : Mem) {a b : ℕ} (v : Word)
    (h : a + 8 ≤ b ∨ b + 8 ≤ a) : loadWord (storeWord m a v) b = loadWord m b := by
  apply loadWord_congr
  intro i hi
  apply storeWord_of_notMem
  omega

/-! ### Pages -/

/-- The 4 KiB page an address lies in, named by its first address. -/
def pageOf (a : ℕ) : ℕ := a / 4096 * 4096

/-- The address is the first one of its page. -/
def PageAligned (p : ℕ) : Prop := p % 4096 = 0

instance (p : ℕ) : Decidable (PageAligned p) := inferInstanceAs (Decidable (p % 4096 = 0))

theorem pageAligned_pageOf (a : ℕ) : PageAligned (pageOf a) := by
  rw [PageAligned, pageOf]
  omega

/-- An offset below 4096 stays in the page. -/
theorem pageOf_add {p b : ℕ} (hp : PageAligned p) (hb : b < 4096) : pageOf (p + b) = p := by
  rw [PageAligned] at hp
  rw [pageOf]
  omega

/-- Every address is its page plus an offset below 4096. -/
theorem pageOf_add_mod (a : ℕ) : pageOf a + a % 4096 = a := by
  rw [pageOf]
  omega

/-- The two memories agree on every page outside `S`. -/
def EqOff (S : Multiset ℕ) (m m' : Mem) : Prop := ∀ a, pageOf a ∉ S → m' a = m a

namespace EqOff

variable {S S' : Multiset ℕ} {m m' m'' : Mem}

theorem refl (S : Multiset ℕ) (m : Mem) : EqOff S m m := fun _ _ => rfl

theorem symm (h : EqOff S m m') : EqOff S m' m := fun a ha => (h a ha).symm

theorem mono (h : EqOff S m m') (hS : ∀ p ∈ S, p ∈ S') : EqOff S' m m' :=
  fun a ha => h a fun hmem => ha (hS _ hmem)

/-- Two changes, one after the other, touch the pages either of them touches. -/
theorem trans (h : EqOff S m m') (h' : EqOff S' m' m'') : EqOff (S + S') m m'' := by
  intro a ha
  rw [Multiset.mem_add, not_or] at ha
  rw [h' a ha.2, h a ha.1]

/-- Two changes inside the same pages stay inside them. -/
theorem trans_self (h : EqOff S m m') (h' : EqOff S m' m'') : EqOff S m m'' :=
  fun a ha => (h' a ha).trans (h a ha)

/-- A byte of an untouched page is unchanged. -/
theorem byte_eq (h : EqOff S m m') {p b : ℕ} (hp : PageAligned p) (hb : b < 4096)
    (hnot : p ∉ S) : m' (p + b) = m (p + b) := by
  apply h
  rwa [pageOf_add hp hb]

/-- A word of an untouched page is unchanged. -/
theorem loadWord_eq (h : EqOff S m m') {p i : ℕ} (hp : PageAligned p) (hi : i < 512)
    (hnot : p ∉ S) : loadWord m' (p + 8 * i) = loadWord m (p + 8 * i) := by
  apply loadWord_congr
  intro j hj
  rw [Nat.add_assoc]
  exact h.byte_eq hp (by omega) hnot

/-- The first word of an untouched page is unchanged. -/
theorem loadWord_head_eq (h : EqOff S m m') {p : ℕ} (hp : PageAligned p) (hnot : p ∉ S) :
    loadWord m' p = loadWord m p := by
  simpa using h.loadWord_eq hp (i := 0) (by omega) hnot

end EqOff

/-- Storing a word of a page touches that page only. -/
theorem eqOff_storeWord (m : Mem) {p i : ℕ} (hp : PageAligned p) (hi : i < 512) (v : Word) :
    EqOff {p} m (storeWord m (p + 8 * i) v) := by
  intro a ha
  rw [Multiset.mem_singleton] at ha
  apply storeWord_of_notMem
  by_contra hin
  apply ha
  rw [show a = p + (a - p) by omega]
  exact pageOf_add hp (by omega)

/-- Storing the first word of a page touches that page only. -/
theorem eqOff_storeWord_head (m : Mem) {p : ℕ} (hp : PageAligned p) (v : Word) :
    EqOff {p} m (storeWord m p v) := by
  simpa using eqOff_storeWord m hp (i := 0) (by omega) v

/-- Storing a byte touches its page only. -/
theorem eqOff_storeByte (m : Mem) (a : ℕ) (b : Byte) : EqOff {pageOf a} m (storeByte m a b) := by
  intro x hx
  rw [Multiset.mem_singleton] at hx
  apply storeByte_of_ne
  rintro rfl
  exact hx rfl

/-- Word `i` and word `j` of one page do not overlap. -/
theorem loadWord_storeWord_of_ne (m : Mem) (p : ℕ) {i j : ℕ} (v : Word) (h : i ≠ j) :
    loadWord (storeWord m (p + 8 * i) v) (p + 8 * j) = loadWord m (p + 8 * j) := by
  apply loadWord_storeWord_of_disjoint
  omega

/-! ### Changes to a set of addresses -/

/-- Only bytes at addresses in `A` are different. -/
def ChangedIn (A : Set ℕ) (m m' : Mem) : Prop := ∀ a, a ∉ A → m' a = m a

/-- The addresses of the pages in `S`. -/
def inPages (S : Multiset ℕ) : Set ℕ := {a | pageOf a ∈ S}

namespace ChangedIn

variable {A B : Set ℕ} {m m' m'' : Mem}

theorem refl (A : Set ℕ) (m : Mem) : ChangedIn A m m := fun _ _ => rfl

theorem mono (h : ChangedIn A m m') (hAB : ∀ a ∈ A, a ∈ B) : ChangedIn B m m' :=
  fun a ha => h a fun hmem => ha (hAB a hmem)

theorem trans (h : ChangedIn A m m') (h' : ChangedIn A m' m'') : ChangedIn A m m'' :=
  fun a ha => (h' a ha).trans (h a ha)

/-- A word none of whose bytes changed is unchanged. -/
theorem loadWord_eq (h : ChangedIn A m m') {a : ℕ} (ha : ∀ i < 8, a + i ∉ A) :
    loadWord m' a = loadWord m a :=
  loadWord_congr fun i hi => h _ (ha i hi)

/-- A change outside a set of pages is invisible there. -/
theorem eqOff (h : ChangedIn A m m') {S : Multiset ℕ} (hA : ∀ a ∈ A, pageOf a ∈ S) :
    EqOff S m m' :=
  fun a ha => h a fun hmem => ha (hA a hmem)

end ChangedIn

theorem changedIn_storeWord (m : Mem) (a : ℕ) (v : Word) :
    ChangedIn (Set.Ico a (a + 8)) m (storeWord m a v) := by
  intro x hx
  apply storeWord_of_notMem
  rw [Set.mem_Ico] at hx
  omega

/-! ### Loops over consecutive bytes -/

/-- A loop that stores at `d`, `d + 1`, … a byte computed from the memory so far. -/
def storeLoop (g : Mem → ℕ → Byte) (d k : ℕ) (m : Mem) : Mem :=
  (List.range k).foldl (fun m b => storeByte m (d + b) (g m b)) m

/-- When what is stored does not depend on the bytes being overwritten, the loop leaves
`g m b` at `d + b` and everything else alone. -/
theorem storeLoop_apply {g : Mem → ℕ → Byte} {d k : ℕ} {m : Mem}
    (hg : ∀ m', (∀ a, ¬ (d ≤ a ∧ a < d + k) → m' a = m a) → ∀ b < k, g m' b = g m b) (a : ℕ) :
    storeLoop g d k m a = if d ≤ a ∧ a < d + k then g m (a - d) else m a := by
  -- after `n` turns the first `n` bytes are written
  suffices h : ∀ n ≤ k, ∀ a, storeLoop g d n m a =
      if d ≤ a ∧ a < d + n then g m (a - d) else m a from h k le_rfl a
  intro n
  induction n with
  | zero =>
    intro _ a
    rw [if_neg (by omega)]
    rfl
  | succ n ih =>
    intro hn a
    have hprev := ih (by omega)
    have hval : g (storeLoop g d n m) n = g m n := by
      apply hg _ _ _ (by omega)
      intro x hx
      rw [hprev, if_neg (by omega)]
    have hstep : storeLoop g d (n + 1) m
        = storeByte (storeLoop g d n m) (d + n) (g (storeLoop g d n m) n) := by
      simp [storeLoop, List.range_succ]
    rw [hstep, hval]
    by_cases ha : a = d + n
    · subst ha
      rw [storeByte_same, if_pos (by omega), Nat.add_sub_cancel_left]
    · rw [storeByte_of_ne _ _ ha, hprev]
      by_cases hin : d ≤ a ∧ a < d + n
      · rw [if_pos hin, if_pos (by omega)]
      · rw [if_neg hin, if_neg (by omega)]

/-- A loop that stores words at `d`, `d + 8`, … computed from the memory so far. -/
def storeWords (g : Mem → ℕ → Word) (d k : ℕ) (m : Mem) : Mem :=
  (List.range k).foldl (fun m i => storeWord m (d + 8 * i) (g m i)) m

/-- When what is stored does not depend on the words being overwritten, the loop leaves `g m i`
at `d + 8 * i` and writes nowhere else. -/
theorem storeWords_spec {g : Mem → ℕ → Word} {d k : ℕ} {m : Mem}
    (hg : ∀ m', ChangedIn (Set.Ico d (d + 8 * k)) m m' → ∀ i < k, g m' i = g m i) :
    ChangedIn (Set.Ico d (d + 8 * k)) m (storeWords g d k m) ∧
      ∀ i < k, loadWord (storeWords g d k m) (d + 8 * i) = g m i := by
  -- after `n` turns the first `n` words are written
  suffices h : ∀ n ≤ k, ChangedIn (Set.Ico d (d + 8 * k)) m (storeWords g d n m) ∧
      ∀ i < n, loadWord (storeWords g d n m) (d + 8 * i) = g m i from h k le_rfl
  intro n
  induction n with
  | zero => exact fun _ => ⟨ChangedIn.refl _ _, by simp⟩
  | succ n ih =>
    intro hn
    obtain ⟨hchanged, hwords⟩ := ih (by omega)
    have hstep : storeWords g d (n + 1) m
        = storeWord (storeWords g d n m) (d + 8 * n) (g (storeWords g d n m) n) := by
      simp [storeWords, List.range_succ]
    rw [hstep, hg _ hchanged n (by omega)]
    refine ⟨hchanged.trans ((changedIn_storeWord _ _ _).mono ?_), fun i hi => ?_⟩
    · intro a ha
      rw [Set.mem_Ico] at ha ⊢
      omega
    · by_cases hin : i = n
      · rw [hin, loadWord_storeWord]
      · rw [loadWord_storeWord_of_ne _ _ _ (Ne.symm hin), hwords i (by omega)]

-- the lemmas above are the interface; unfolding a word into bytes is never wanted later
attribute [irreducible] loadWord storeWord

end ByteMemory
