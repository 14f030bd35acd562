import RiscvKernel.Memory.Mmu

/-!
# Virtual addresses and leaf entries

`walk_pte` finds the leaf entry of an address by its bits 38 to 12. Two page addresses that are
canonical, so that bit 38 determines the bits above it, share a leaf entry only if they are equal
(`eq_of_leafSlot_eq`).

The upper entries the kernel writes have no permission bits, so that the hardware's walk ends at
the same leaf entry, `leafEntry`.
-/

namespace RiscvKernel

open ByteMemory RadixTable

/-- The leaf entry of an address, by its table indexes as `walk_pte` computes them. -/
def leafSlot (va : Word) : ℕ × ℕ × ℕ := (getVpn va 2, getVpn va 1, getVpn va 0)

/-- The valid leaf entry of an address, if there is one. -/
def leafEntry (m : Mem) (pgd : ℕ) (va : Word) : Option Word :=
  sv39.leafAt m (getVpn va) 2 pgd

/-- The physical address an address leads to through a leaf entry. -/
def physAddr (e va : Word) : ℕ := (pteToPa e).toNat + va.toNat % 4096

/-- User programs may write through the entry. -/
def UserWritable (e : Word) : Prop := e &&& pteU ≠ 0 ∧ e &&& pteW ≠ 0

instance (e : Word) : Decidable (UserWritable e) :=
  inferInstanceAs (Decidable (e &&& pteU ≠ 0 ∧ e &&& pteW ≠ 0))

/-- A canonical Sv39 address: bits 63 to 39 are equal to bit 38. -/
def Canonical (va : Word) : Prop := ∀ k, 38 ≤ k → k < 64 → va.getLsbD k = va.getLsbD 38

/-- The canonical addresses are two halves at the ends of the 64-bit addresses. -/
theorem canonical_iff (va : Word) :
    Canonical va ↔ va.toNat < 2 ^ 38 ∨ 2 ^ 64 - 2 ^ 38 ≤ va.toNat := by
  have hlt := va.isLt
  -- the bits from 38 on are those of the quotient
  have hbit : ∀ k, va.getLsbD (38 + k) = (va.toNat / 2 ^ 38).testBit k := by
    intro k
    rw [Nat.testBit_div_two_pow, Nat.add_comm k]
    rfl
  constructor
  · intro h
    cases h38 : va.getLsbD 38 with
    | false =>
      left
      -- they are all 0, or all 1
      have hzero : va.toNat / 2 ^ 38 = 0 := by
        apply Nat.eq_of_testBit_eq
        intro k
        rw [Nat.zero_testBit, ← hbit]
        by_cases hk : 38 + k < 64
        · rw [h _ (by omega) hk, h38]
        · exact BitVec.getLsbD_of_ge _ _ (by omega)
      omega
    | true =>
      right
      have hones : va.toNat / 2 ^ 38 = 2 ^ 26 - 1 := by
        apply Nat.eq_of_testBit_eq
        intro k
        rw [Nat.testBit_two_pow_sub_one, ← hbit]
        by_cases hk : 38 + k < 64
        · rw [h _ (by omega) hk, h38]
          simp; omega
        · rw [BitVec.getLsbD_of_ge _ _ (by omega)]
          simp; omega
      omega
  · rintro (h | h) k hk hk'
    · have hz : va.toNat / 2 ^ 38 = 0 := by omega
      obtain ⟨j, rfl⟩ : ∃ j, k = 38 + j := ⟨k - 38, by omega⟩
      have h0 := hbit 0
      rw [hbit, hz]
      rw [hz] at h0
      simpa using h0.symm
    · have hz : va.toNat / 2 ^ 38 = 2 ^ 26 - 1 := by omega
      obtain ⟨j, rfl⟩ : ∃ j, k = 38 + j := ⟨k - 38, by omega⟩
      have h0 := hbit 0
      rw [hz] at h0
      rw [hbit, hz, Nat.testBit_two_pow_sub_one]
      simp at h0
      simp [h0]
      omega

theorem pageOf_physAddr (e va : Word) : pageOf (physAddr e va) = (pteToPa e).toNat :=
  pageOf_add (pteToPa_aligned e) (Nat.mod_lt _ (by decide))

/-- A leaf entry is valid: it names its frame. -/
theorem child_of_leafEntry {m : Mem} {pgd : ℕ} {va e : Word} (h : leafEntry m pgd va = some e) :
    sv39.child e = some (pteToPa e).toNat ∧
      sv39.frameAt m (getVpn va) 2 pgd = some (pteToPa e).toNat := by
  obtain ⟨-, q, -, -, hq⟩ := EntryFormat.exists_slot_of_leafAt h
  have hchild : sv39.child e = some (pteToPa e).toNat := by
    by_cases hv : e &&& pteV ≠ 0
    · exact sv39_child_of_valid hv
    · rw [sv39_child_of_not_valid hv] at hq
      cases hq
  refine ⟨hchild, ?_⟩
  rw [EntryFormat.frameAt, show sv39.leafAt m (getVpn va) 2 pgd = some e from h]
  exact hchild

/-- Canonical page addresses with the same leaf entry are equal. -/
theorem eq_of_leafSlot_eq {p q : Word} (hp : Canonical p) (hq : Canonical q)
    (hpal : p.toNat % 4096 = 0) (hqal : q.toNat % 4096 = 0) (h : leafSlot p = leafSlot q) :
    p = q := by
  rw [canonical_iff] at hp hq
  simp only [leafSlot, getVpn_eq, Prod.mk.injEq] at h
  have hplt := p.isLt
  have hqlt := q.isLt
  apply BitVec.eq_of_toNat_eq
  omega

/-- The address of the page of an address. -/
def pageVa (va : Word) : Word := va &&& ~~~ 0xFFF#64

theorem pageVa_toNat (va : Word) : (pageVa va).toNat = va.toNat / 4096 * 4096 :=
  toNat_and_not_fff va

/-- An address has the leaf entry of its page. -/
theorem leafSlot_pageVa (va : Word) : leafSlot (pageVa va) = leafSlot va := by
  have hvpn : ∀ k, getVpn (pageVa va) k = getVpn va k := by
    intro k
    rw [getVpn_eq, getVpn_eq, pageVa_toNat, Nat.pow_add, ← Nat.div_div_eq_div_mul,
      ← Nat.div_div_eq_div_mul, Nat.mul_div_cancel _ (by decide)]
  rw [leafSlot, leafSlot, hvpn, hvpn, hvpn]

end RiscvKernel
