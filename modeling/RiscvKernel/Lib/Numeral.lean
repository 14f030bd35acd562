import Mathlib.Data.Nat.Digits.Lemmas
import RiscvKernel.Lib.CString

/-!
# Numerals

What a string of characters says as a number in a base up to 16 (`readNat`, `readInt`), and the
numeral that a number is written as (`numeral`): digits without a leading zero, and a minus sign
for a negative number.

* `readDigits_map`, `exists_digits`: what the reader accepts, and the number it makes of that.
* `shortest_numeral`: the numeral of a number is the only shortest string that is read as it.
-/

open ByteMemory

namespace Numeral

variable {base n m d : ℕ} {c : Byte} {cs : List Byte} {ds : List ℕ} {z : ℤ}

/-! ### Reading -/

/-- The digit that a character stands for: `0` to `9`, then `a` to `f`. -/
def digitValue (c : Byte) : Option ℕ :=
  if chr '0' ≤ c ∧ c ≤ chr '9' then some (c - chr '0').toNat
  else if chr 'a' ≤ c ∧ c ≤ chr 'f' then some ((c - chr 'a').toNat + 10)
  else none

/-- Read on after the number `n`, most significant digits first. -/
def readDigits (base : ℕ) : ℕ → List Byte → Option ℕ
  | n, [] => some n
  | n, c :: cs => (digitValue c).bind fun d =>
    if d < base then readDigits base (base * n + d) cs else none

/-- Read a natural number: digits, at least one. -/
def readNat (base : ℕ) (cs : List Byte) : Option ℕ :=
  if cs = [] then none else readDigits base 0 cs

/-- Read an integer: a natural number, or a minus sign and one. -/
def readInt (base : ℕ) (cs : List Byte) : Option ℤ :=
  if cs.head? = some (chr '-') then (readNat base cs.tail).map fun n : ℕ => -(n : ℤ)
  else (readNat base cs).map fun n : ℕ => (n : ℤ)

/-- The character of a digit. -/
def digitChar (d : ℕ) : Byte :=
  if d < 10 then chr '0' + BitVec.ofNat 8 d else chr 'a' + BitVec.ofNat 8 (d - 10)

theorem digitValue_digitChar (hd : d < 16) : digitValue (digitChar d) = some d := by
  revert d
  decide

theorem digitChar_ne_minus (hd : d < 16) : digitChar d ≠ chr '-' := by
  revert d
  decide

theorem digitChar_ne_zero (hd : d < 16) (h : d ≠ 0) : digitChar d ≠ chr '0' := by
  revert d
  decide

theorem digitChar_of_digitValue (h : digitValue c = some d) : digitChar d = c := by
  have hall : ∀ c : Byte, (digitValue c).all fun d => digitChar d = c := by decide
  simpa [h] using hall c

/-- Digits are read as the number that they are the digits of. -/
theorem readDigits_map (hb : base ≤ 16) (hds : ∀ d ∈ ds, d < base) :
    readDigits base n (ds.map digitChar) =
      some (Nat.ofDigits base ds.reverse + base ^ ds.length * n) := by
  induction ds generalizing n with
  | nil => simp [readDigits]
  | cons d ds ih =>
    obtain ⟨hd, hds⟩ := List.forall_mem_cons.mp hds
    rw [List.map_cons, readDigits, digitValue_digitChar (hd.trans_le hb), Option.bind_some,
      if_pos hd, ih hds, List.reverse_cons, Nat.ofDigits_append, Nat.ofDigits_singleton,
      List.length_reverse, List.length_cons, pow_succ]
    congr 1
    ring

/-- Only digits are read. -/
theorem exists_digits (h : readDigits base n cs = some m) :
    ∃ ds : List ℕ, cs = ds.map digitChar ∧ (∀ d ∈ ds, d < base) ∧
      m = Nat.ofDigits base ds.reverse + base ^ ds.length * n := by
  induction cs generalizing n with
  | nil =>
    obtain rfl : n = m := Option.some.inj h
    exact ⟨[], rfl, by simp, by simp⟩
  | cons c cs ih =>
    obtain ⟨d, hd, h⟩ := Option.bind_eq_some_iff.mp h
    split_ifs at h with hlt
    obtain ⟨ds, rfl, hds, rfl⟩ := ih h
    refine ⟨d :: ds, ?_, List.forall_mem_cons.mpr ⟨hlt, hds⟩, ?_⟩
    · rw [List.map_cons, digitChar_of_digitValue hd]
    · rw [List.reverse_cons, Nat.ofDigits_append, Nat.ofDigits_singleton, List.length_reverse,
        List.length_cons, pow_succ]
      ring

/-- A natural number is read from digits, the least significant one last. -/
theorem readNat_eq_some (hb : base ≤ 16) : readNat base cs = some n ↔
    ∃ ds : List ℕ, ds ≠ [] ∧ cs = (ds.map digitChar).reverse ∧ (∀ d ∈ ds, d < base) ∧
      Nat.ofDigits base ds = n := by
  constructor
  · intro h
    unfold readNat at h
    split_ifs at h with hnil
    obtain ⟨ds, rfl, hds, hn⟩ := exists_digits h
    refine ⟨ds.reverse, by simpa using hnil, ?_, by simpa using hds, by simpa using hn.symm⟩
    rw [List.map_reverse, List.reverse_reverse]
  · rintro ⟨ds, hnil, rfl, hds, rfl⟩
    rw [readNat, if_neg (by simpa using hnil), ← List.map_reverse,
      readDigits_map hb (by simpa using hds), List.reverse_reverse, Nat.mul_zero, Nat.add_zero]

/-! ### Writing -/

/-- The numeral of a natural number. -/
def natNumeral (base n : ℕ) : List Byte :=
  if n = 0 then [chr '0'] else ((Nat.digits base n).map digitChar).reverse

/-- The numeral of an integer. -/
def numeral (base : ℕ) (z : ℤ) : List Byte :=
  if z < 0 then chr '-' :: natNumeral base z.natAbs else natNumeral base z.natAbs

/-- The digits of a numeral. There is one also for zero. -/
theorem exists_natNumeral (hb : 1 < base) (n : ℕ) : ∃ ds : List ℕ, ds ≠ [] ∧
    natNumeral base n = (ds.map digitChar).reverse ∧ (∀ d ∈ ds, d < base) ∧
      Nat.ofDigits base ds = n := by
  unfold natNumeral
  split_ifs with hn
  · exact ⟨[0], by simp, rfl, by simp; omega, by simp [hn]⟩
  · exact ⟨Nat.digits base n, Nat.digits_ne_nil_iff_ne_zero.mpr hn, rfl,
      fun d hd => Nat.digits_lt_base hb hd, Nat.ofDigits_digits base n⟩

/-- What is written is read back. -/
theorem readNat_natNumeral (hb : 1 < base) (hb' : base ≤ 16) (n : ℕ) :
    readNat base (natNumeral base n) = some n :=
  (readNat_eq_some hb').mpr (exists_natNumeral hb n)

theorem head?_natNumeral_ne_minus (hb : 1 < base) (hb' : base ≤ 16) (n : ℕ) :
    (natNumeral base n).head? ≠ some (chr '-') := by
  obtain ⟨ds, _, hds, hlt, _⟩ := exists_natNumeral hb n
  intro hhead
  have hmem : chr '-' ∈ natNumeral base n := List.mem_of_head? hhead
  rw [hds, List.mem_reverse, List.mem_map] at hmem
  obtain ⟨d, hd, heq⟩ := hmem
  exact digitChar_ne_minus ((hlt d hd).trans_le hb') heq

theorem head?_natNumeral_ne_zero (hb : 1 < base) (hb' : base ≤ 16) (hn : n ≠ 0) :
    (natNumeral base n).head? ≠ some (chr '0') := by
  have hnil : Nat.digits base n ≠ [] := Nat.digits_ne_nil_iff_ne_zero.mpr hn
  have hlast : (Nat.digits base n).getLast hnil < base :=
    Nat.digits_lt_base hb (List.getLast_mem hnil)
  rw [natNumeral, if_neg hn, List.head?_reverse, List.getLast?_map,
    List.getLast?_eq_some_getLast hnil]
  intro h
  exact digitChar_ne_zero (hlast.trans_le hb') (Nat.getLast_digit_ne_zero base hn)
    (Option.some.inj h)

/-- No numeral of the same natural number is shorter. -/
theorem length_natNumeral_le (hb : 1 < base) (hb' : base ≤ 16) (h : readNat base cs = some n) :
    (natNumeral base n).length ≤ cs.length := by
  obtain ⟨ds, hnil, rfl, hds, rfl⟩ := (readNat_eq_some hb').mp h
  unfold natNumeral
  split_ifs with hn
  · simpa [Nat.one_le_iff_ne_zero] using hnil
  · simpa using (Nat.digits_length_le_iff hb _).mpr (Nat.ofDigits_lt_base_pow_length hb hds)

/-- No other numeral of the same natural number is as short. -/
theorem eq_natNumeral (hb : 1 < base) (hb' : base ≤ 16) (h : readNat base cs = some n)
    (hlen : cs.length = (natNumeral base n).length) : cs = natNumeral base n := by
  obtain ⟨ds, _, rfl, hds, hn⟩ := (readNat_eq_some hb').mp h
  obtain ⟨ds', _, hds', hlt, hn'⟩ := exists_natNumeral hb n
  rw [hds'] at hlen ⊢
  rw [Nat.ofDigits_inj_of_len_eq hb (by simpa using hlen) hds hlt (hn.trans hn'.symm)]

/-- The characters after the minus sign, if there is one. -/
def unsigned (cs : List Byte) : List Byte := if cs.head? = some (chr '-') then cs.tail else cs

/-- The string is the only shortest numeral of `z`: it is read back as `z`, it has a minus sign
exactly for a negative number and no zero in front, and every other string that is read as `z` is
longer. -/
structure Shortest (base : ℕ) (z : ℤ) (cs : List Byte) : Prop where
  reads : readInt base cs = some z
  minus : cs.head? = some (chr '-') ↔ z < 0
  leading : z ≠ 0 → (unsigned cs).head? ≠ some (chr '0')
  shorter : ∀ cs', readInt base cs' = some z → cs' ≠ cs → cs.length < cs'.length

theorem unsigned_numeral (hb : 1 < base) (hb' : base ≤ 16) (z : ℤ) :
    unsigned (numeral base z) = natNumeral base z.natAbs := by
  unfold unsigned numeral
  split_ifs with hz h h
  · rfl
  · exact absurd rfl h
  · exact absurd h (head?_natNumeral_ne_minus hb hb' _)
  · rfl

theorem head?_numeral (hb : 1 < base) (hb' : base ≤ 16) (z : ℤ) :
    (numeral base z).head? = some (chr '-') ↔ z < 0 := by
  unfold numeral
  split_ifs with hz
  · exact iff_of_true rfl hz
  · exact iff_of_false (head?_natNumeral_ne_minus hb hb' _) hz

/-- A string that is read as `z` is as long as the numeral of `z` only if it is this numeral. -/
theorem length_lt_of_readInt (hb : 1 < base) (hb' : base ≤ 16) (h : readInt base cs = some z)
    (hne : cs ≠ numeral base z) : (numeral base z).length < cs.length := by
  unfold readInt at h
  unfold numeral at hne ⊢
  split_ifs at h with hminus
  · -- after a minus sign: a number that is not positive
    obtain ⟨n, hn, rfl⟩ := Option.map_eq_some_iff.mp h
    obtain ⟨cs, rfl⟩ : ∃ cs', cs = chr '-' :: cs' := List.head?_eq_some_iff.mp hminus
    rw [List.tail_cons] at hn
    have hle := length_natNumeral_le hb hb' hn
    split_ifs at hne ⊢ with hz
    · refine lt_of_le_of_ne (by simpa using hle) fun hlen => hne ?_
      rw [Int.natAbs_neg, Int.natAbs_natCast] at hlen ⊢
      rw [eq_natNumeral hb hb' hn (by simpa using hlen.symm)]
    · rw [Int.natAbs_neg, Int.natAbs_natCast]
      exact Nat.lt_succ_of_le hle
  · obtain ⟨n, hn, rfl⟩ := Option.map_eq_some_iff.mp h
    rw [if_neg (by omega), Int.natAbs_natCast] at hne ⊢
    exact lt_of_le_of_ne (length_natNumeral_le hb hb' hn)
      fun hlen => hne (eq_natNumeral hb hb' hn hlen.symm)

/-- The numeral of an integer is its only shortest one. -/
theorem shortest_numeral (hb : 1 < base) (hb' : base ≤ 16) (z : ℤ) :
    Shortest base z (numeral base z) where
  reads := by
    have hhead := head?_numeral hb hb' z
    unfold readInt
    split_ifs with hminus
    · have hz := hhead.mp hminus
      rw [numeral, if_pos hz, List.tail_cons, readNat_natNumeral hb hb', Option.map_some]
      congr 1
      omega
    · have hz := mt hhead.mpr hminus
      rw [numeral, if_neg hz, readNat_natNumeral hb hb', Option.map_some]
      congr 1
      omega
  minus := head?_numeral hb hb' z
  leading := by
    intro hz
    rw [unsigned_numeral hb hb']
    exact head?_natNumeral_ne_zero hb hb' (Int.natAbs_ne_zero.mpr hz)
  shorter := fun _ h hne => length_lt_of_readInt hb hb' h hne

end Numeral
