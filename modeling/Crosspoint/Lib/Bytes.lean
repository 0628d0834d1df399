import Mathlib.Data.Nat.Bitwise

/-! Single bits of bytes, read and written by a mask. -/

namespace Bytes

/-- `(uint8_t)(1 << b)`, which is 0 from 8 on. -/
def mask (b : UInt8) : UInt8 := UInt8.ofNat (1 <<< b.toNat)

/-- Bit `b` of `w`: `w & (1 << b)`. -/
def bit (w b : UInt8) : Bool := w &&& mask b != 0

/-- `w` with bit `b` set to `v`: `w | (1 << b)` or `w & ~(1 << b)`. -/
def withBit (w b : UInt8) (v : Bool) : UInt8 := if v then w ||| mask b else w &&& ~~~(mask b)

theorem testBit_mask (b : UInt8) (j : Nat) : (mask b).toNat.testBit j = decide (j < 8 ∧ b.toNat = j) := by
  rw [mask, UInt8.toNat_ofNat', Nat.one_shiftLeft, Nat.testBit_mod_two_pow, Nat.testBit_two_pow, Bool.decide_and]

theorem testBit_ge {w : UInt8} {j : Nat} (hj : 8 ≤ j) : w.toNat.testBit j = false :=
  Nat.testBit_lt_two_pow (Nat.lt_of_lt_of_le w.toNat_lt (Nat.pow_le_pow_right (by omega) hj))

theorem bit_eq_testBit (w b : UInt8) : bit w b = w.toNat.testBit b.toNat := by
  rw [Bool.eq_iff_iff, bit, bne_iff_ne, Ne, ← UInt8.toNat_inj, UInt8.toNat_zero]
  constructor
  · intro h
    obtain ⟨j, hj⟩ := Nat.exists_testBit_of_ne_zero h
    rw [UInt8.toNat_and, Nat.testBit_and, testBit_mask, Bool.and_eq_true, decide_eq_true_eq] at hj
    rw [hj.2.2]
    exact hj.1
  · intro h h0
    have hlt : b.toNat < 8 := Nat.lt_of_not_le fun hge => by
      rw [testBit_ge hge] at h
      cases h
    have hand : (w &&& mask b).toNat.testBit b.toNat = true := by
      rw [UInt8.toNat_and, Nat.testBit_and, testBit_mask, h, decide_eq_true ⟨hlt, rfl⟩]
      rfl
    rw [h0, Nat.zero_testBit] at hand
    cases hand

theorem testBit_not {w : UInt8} {j : Nat} (hj : j < 8) : (~~~w).toNat.testBit j = !w.toNat.testBit j := by
  have hw := w.toNat_lt
  have hnot : UInt8.size - 1 - w.toNat = 2 ^ 8 - (w.toNat + 1) := by simp only [UInt8.size]; omega
  rw [UInt8.toNat_not, hnot, Nat.testBit_two_pow_sub_succ (by omega)]
  simp [hj]

/-- Writing one bit of a byte changes that bit and no other. -/
theorem bit_withBit {w b m : UInt8} {v : Bool} (hb : b.toNat < 8) :
    bit (withBit w b v) m = if b = m then v else bit w m := by
  have heq : b = m ↔ b.toNat = m.toNat := UInt8.toNat_inj.symm
  rw [bit_eq_testBit, bit_eq_testBit, withBit]
  simp only [heq]
  by_cases hm : m.toNat < 8
  · cases v
    · rw [if_neg Bool.false_ne_true, UInt8.toNat_and, Nat.testBit_and, testBit_not hm, testBit_mask]
      split <;> rename_i h <;> simp [h, hm]
    · rw [if_pos rfl, UInt8.toNat_or, Nat.testBit_or, testBit_mask]
      split <;> rename_i h <;> simp [h, hm]
  · rw [testBit_ge (Nat.not_lt.mp hm), testBit_ge (Nat.not_lt.mp hm), if_neg (by omega)]

theorem bit_zero (b : UInt8) : bit 0 b = false := by
  rw [bit, UInt8.zero_and]
  rfl

end Bytes
