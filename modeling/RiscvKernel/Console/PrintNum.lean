import RiscvKernel.Lib.Numeral

/-!
# Printing a number

`print_num` of the kernel's `printf`: the number is divided by the base until nothing is left, the
digits go into a buffer of 64 characters, and the buffer is printed backwards. A computation here
has what it prints as its result; that it has one means that the loops end and that every index of
the buffer is below 64.

* `Divided`: the invariant of the loop that divides.
* `printNum_returns`: a number that has an absolute value is printed as its numeral.
-/

open ByteMemory Execution Numeral

/-! ### Definitions -/

/-- `num`, `i` and `buf` of `print_num`, while it divides. -/
structure Division where
  num : Word
  i : ℕ
  buf : CharArray 64

/-- `digits` of `print_num`. -/
def printDigits : CharPtr := lit "0123456789abcdef"

/-- A turn of `while (num > 0)`. -/
def divideTurn (base : Word) (s : Division) : Execution (Turn Division Division) :=
  if 0 < s.num then do
    let buf ← s.buf.store s.i (printDigits.add (s.num % base).toNat).deref
    pure (.again ⟨s.num / base, s.i + 1, buf⟩)
  else pure (.leave s)

/-- A turn of `while (i > 0)`, with `i` and what has been printed. -/
def reverseTurn (buf : CharArray 64) (s : ℕ × List Byte) :
    Execution (Turn (ℕ × List Byte) (List Byte)) :=
  if 0 < s.1 then do
    let c ← buf.load (s.1 - 1)
    pure (.again (s.1 - 1, s.2 ++ [c]))
  else pure (.leave s.2)

/-- `-((long)num)`. The smallest number has no negation. -/
def negLong (num : Word) : Execution Word :=
  if num = BitVec.intMin 64 then undefined else pure (-num)

/-- `print_num`. -/
def printNum (num : Word) (base : BitVec 32) (sign : Bool) : Execution (List Byte) := do
  let (num, out) ←
    if sign ∧ num.toInt < 0 then do
      let num ← negLong num
      pure (num, [chr '-'])
    else pure (num, [])
  if num = 0 then pure (out ++ [chr '0'])
  else
    let s ← loop (divideTurn (base.signExtend 64)) ⟨num, 0, .fresh 64⟩
    loop (reverseTurn s.buf) (s.i, out)

/-! ### The loops -/

theorem deref_printDigits {d : ℕ} (hd : d < 16) : (printDigits.add d).deref = digitChar d := by
  revert d
  decide

/-- What holds of the state while `v` is divided by `b`: the lowest digits are in the buffer and
the others are left. -/
structure Divided (b v : ℕ) (s : Division) : Prop where
  num : s.num.toNat = v / b ^ s.i
  text : s.buf.text s.i = (((Nat.digits b v).take s.i).map digitChar).map some

variable {base v : Word} {s : Division}

/-- A turn puts the next digit into the buffer, as long as there is one. -/
theorem Divided.turn (hb : 1 < base.toNat) (hb' : base.toNat ≤ 16)
    (h : Divided base.toNat v.toNat s) :
    (∃ s', (divideTurn base s).Returns (.again s') ∧ Divided base.toNat v.toNat s' ∧
        s'.num.toNat < s.num.toNat) ∨
      ∃ s', (divideTurn base s).Returns (.leave s') ∧
        s'.buf.text s'.i = ((Nat.digits base.toNat v.toNat).map digitChar).map some := by
  by_cases hpos : 0 < s.num
  · left
    have hnum : 0 < s.num.toNat := hpos
    -- something is left, so there is another digit
    have hpow : base.toNat ^ s.i ≤ v.toNat := by
      by_contra hlt
      rw [h.num, Nat.div_eq_of_lt (not_le.mp hlt)] at hnum
      exact lt_irrefl 0 hnum
    have hlen : s.i < (Nat.digits base.toNat v.toNat).length :=
      (Nat.lt_digits_length_iff hb _).mpr hpow
    have hi : s.i < 64 := by
      refine (Nat.pow_lt_pow_iff_right one_lt_two).mp ?_
      exact ((Nat.pow_le_pow_left hb s.i).trans hpow).trans_lt v.isLt
    have hdigit : (Nat.digits base.toNat v.toNat)[s.i] = (s.num % base).toNat := by
      rw [BitVec.toNat_umod, h.num, ← Nat.getD_digits _ _ hb,
        List.getD_eq_getElem?_getD, List.getElem?_eq_getElem hlen, Option.getD_some]
    have hlt : (s.num % base).toNat < 16 := by
      rw [BitVec.toNat_umod]
      exact (Nat.mod_lt _ (by omega)).trans_le hb'
    refine ⟨⟨s.num / base, s.i + 1, s.buf.set s.i (printDigits.add (s.num % base).toNat).deref⟩,
      ?_, ⟨?_, ?_⟩, ?_⟩
    · rw [divideTurn, if_pos hpos]
      exact (CharArray.returns_store hi).bind (returns_pure.mpr rfl)
    · rw [BitVec.toNat_udiv, h.num, Nat.div_div_eq_div_mul, pow_succ]
    · rw [CharArray.text_set, h.text, deref_printDigits hlt, List.take_succ_eq_append_getElem hlen,
        hdigit, List.map_append, List.map_append, List.map_singleton, List.map_singleton]
    · rw [BitVec.toNat_udiv]
      exact Nat.div_lt_self hnum hb
  · right
    have hnum : s.num.toNat = 0 := Nat.eq_zero_of_not_pos hpos
    refine ⟨s, by rw [divideTurn, if_neg hpos]; exact returns_pure.mpr rfl, ?_⟩
    -- nothing is left, so all digits have been taken
    have hlt : v.toNat < base.toNat ^ s.i := by
      rw [h.num] at hnum
      exact (Nat.div_eq_zero_iff.mp hnum).resolve_left (Nat.pow_pos (by omega)).ne'
    have hle := (Nat.digits_length_le_iff hb _).mpr hlt
    rw [h.text, List.take_of_length_le hle]

/-- The loop that divides leaves all digits in the buffer. -/
theorem exists_divided (hb : 1 < base.toNat) (hb' : base.toNat ≤ 16) (v : Word) :
    ∃ s, (loop (divideTurn base) ⟨v, 0, .fresh 64⟩).Returns s ∧
      s.buf.text s.i = ((Nat.digits base.toNat v.toNat).map digitChar).map some :=
  exists_returns_loop (fun s => s.num.toNat) (Divided base.toNat v.toNat) _
    (fun _ h => h.turn hb hb') ⟨by simp, by simp [CharArray.text]⟩

/-- The other loop prints the buffer backwards. -/
theorem returns_reverse {buf : CharArray 64} {cs out : List Byte}
    (hcs : buf.text cs.length = cs.map some) (hlen : cs.length ≤ 64) :
    (loop (reverseTurn buf) (cs.length, out)).Returns (out ++ cs.reverse) := by
  induction cs using List.reverseRecOn generalizing out with
  | nil =>
    refine Returns.leave ?_
    rw [List.reverse_nil, List.append_nil]
    exact returns_pure.mpr rfl
  | append_singleton cs c ih =>
    obtain ⟨htext, hlast⟩ := CharArray.text_concat.mp hcs
    rw [List.length_append, List.length_singleton] at hlen ⊢
    have hload : (buf.load cs.length).Returns c := CharArray.returns_load hlen hlast
    have hturn : (reverseTurn buf (cs.length + 1, out)).Returns
        (.again (cs.length, out ++ [c])) := by
      rw [reverseTurn, if_pos (Nat.succ_pos _)]
      exact hload.bind (returns_pure.mpr rfl)
    refine hturn.again ?_
    rw [List.reverse_append, List.reverse_singleton, ← List.append_assoc]
    exact ih htext (by omega)

/-! ### The whole function -/

/-- A number other than zero, after the sign: its digits, the last one first in the buffer. -/
theorem exists_digits_printed (hb : 1 < base.toNat) (hb' : base.toNat ≤ 16) (hv : v ≠ 0)
    (out : List Byte) : ∃ s, (loop (divideTurn base) ⟨v, 0, .fresh 64⟩).Returns s ∧
      (loop (reverseTurn s.buf) (s.i, out)).Returns (out ++ natNumeral base.toNat v.toNat) := by
  obtain ⟨s, hs, htext⟩ := exists_divided hb hb' v
  refine ⟨s, hs, ?_⟩
  have hi : s.i = ((Nat.digits base.toNat v.toNat).map digitChar).length := by
    simpa using congrArg List.length htext
  have hlen : ((Nat.digits base.toNat v.toNat).map digitChar).length ≤ 64 := by
    rw [List.length_map]
    exact (Nat.digits_length_le_iff hb _).mpr (v.isLt.trans_le (Nat.pow_le_pow_left hb 64))
  rw [natNumeral, if_neg (by simpa using mt BitVec.eq_of_toNat_eq hv), hi]
  rw [hi] at htext
  exact returns_reverse htext hlen

/-- `print_num` after the sign. -/
theorem returns_afterSign (hb : 1 < base.toNat) (hb' : base.toNat ≤ 16) (v : Word)
    (out : List Byte) :
    (if v = 0 then pure (out ++ [chr '0'])
      else do
        let s ← loop (divideTurn base) ⟨v, 0, .fresh 64⟩
        loop (reverseTurn s.buf) (s.i, out)).Returns (out ++ natNumeral base.toNat v.toNat) := by
  split_ifs with hv
  · subst hv
    exact returns_pure.mpr rfl
  · obtain ⟨s, hs, hout⟩ := exists_digits_printed hb hb' hv out
    exact hs.bind hout

/-- A number is printed as its numeral, unless it is signed and has no absolute value. -/
theorem printNum_returns (num : Word) (base : BitVec 32) (sign : Bool) (hb : 1 < base.toNat)
    (hb' : base.toNat ≤ 16) (hnum : sign → num ≠ BitVec.intMin 64) :
    (printNum num base sign).Returns
      (numeral base.toNat (if sign then num.toInt else (num.toNat : ℤ))) := by
  -- a base up to 16 is positive as an `int`, so that widening keeps its value
  have hbase : (base.signExtend 64).toNat = base.toNat := by
    rw [BitVec.signExtend_eq_setWidth_of_msb_false, BitVec.toNat_setWidth_of_le (by omega)]
    exact BitVec.msb_eq_false_iff_two_mul_lt.mpr (by omega)
  rw [← hbase] at hb hb' ⊢
  unfold printNum
  by_cases hneg : sign ∧ num.toInt < 0
  · obtain ⟨rfl, hlt⟩ := hneg
    rw [if_pos ⟨rfl, hlt⟩, negLong, if_neg (hnum rfl)]
    -- the negation does not overflow, and is the absolute value
    have habs : num.toInt.natAbs = (-num).toNat := by
      have hv := num.isLt
      rw [BitVec.toInt_eq_toNat_cond] at hlt ⊢
      rw [BitVec.toNat_neg]
      split_ifs at hlt ⊢ <;> omega
    rw [if_pos rfl, numeral, if_pos hlt, habs]
    exact Returns.bind (Returns.bind (returns_pure.mpr rfl) (returns_pure.mpr rfl))
      (returns_afterSign hb hb' (-num) [chr '-'])
  · rw [if_neg hneg]
    -- not negative, or not taken as signed: the value is that of the word
    have hval : numeral (base.signExtend 64).toNat (if sign then num.toInt else (num.toNat : ℤ))
        = natNumeral (base.signExtend 64).toNat num.toNat := by
      have hnonneg : (if sign then num.toInt else (num.toNat : ℤ)) = num.toNat := by
        have hv := num.isLt
        split_ifs with hsign
        · rw [BitVec.toInt_eq_toNat_cond]
          have hge : ¬ num.toInt < 0 := fun hlt => hneg ⟨hsign, hlt⟩
          rw [BitVec.toInt_eq_toNat_cond] at hge
          split_ifs at hge ⊢ <;> omega
        · rfl
      rw [hnonneg, numeral, if_neg (by omega), Int.natAbs_natCast]
    rw [hval]
    exact Returns.bind (returns_pure.mpr rfl) (returns_afterSign hb hb' num [])

/-- `%d`: the argument is converted to a number of 64 bits with its sign. -/
theorem printNum_int (v : BitVec 32) :
    (printNum (v.signExtend 64) 10 true).Returns (numeral 10 v.toInt) := by
  have hmin : v.signExtend 64 ≠ BitVec.intMin 64 := by
    intro h
    have hint := congrArg BitVec.toInt h
    rw [BitVec.toInt_signExtend_of_le (by omega)] at hint
    have hlo := BitVec.le_toInt v
    rw [hint] at hlo
    exact absurd hlo (by decide)
  have h := printNum_returns (v.signExtend 64) 10 true (by decide) (by decide) (fun _ => hmin)
  rwa [if_pos rfl, BitVec.toInt_signExtend_of_le (by omega)] at h

/-- `%x`. -/
theorem printNum_hex (v : Word) : (printNum v 16 false).Returns (numeral 16 v.toNat) :=
  printNum_returns v 16 false (by decide) (by decide) (fun h => absurd h (by decide))

/-- Numbers are printed exactly: `print_num` returns, so that no index of its buffer is out of
range, and what it prints is the shortest numeral of the number. -/
theorem printNum_exact :
    (∀ v : BitVec 32, ∃ out, (printNum (v.signExtend 64) 10 true).Returns out ∧
      Shortest 10 v.toInt out) ∧
    ∀ v : Word, ∃ out, (printNum v 16 false).Returns out ∧ Shortest 16 v.toNat out :=
  ⟨fun v => ⟨_, printNum_int v, shortest_numeral (by omega) (by omega) _⟩,
    fun v => ⟨_, printNum_hex v, shortest_numeral (by omega) (by omega) _⟩⟩
