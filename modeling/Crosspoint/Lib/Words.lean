import Mathlib.Data.Nat.Bitwise

/-! Single bits of 32-bit words, read by a shift and a mask and written by a mask. -/

namespace Words

/-- Bit `n mod 32` of `w`: `(w >> (n & 0x1F)) & 1`. -/
def bit (w n : UInt32) : Bool := (w >>> (n &&& 0x1F)) &&& 1 != 0

/-- `w` with bit `n mod 32` set to `v`: `w | (1 << (n & 0x1F))` or `w & ~(1 << (n & 0x1F))`. -/
def withBit (w n : UInt32) (v : Bool) : UInt32 :=
  if v then w ||| (1 <<< (n &&& 0x1F)) else w &&& ~~~(1 <<< (n &&& 0x1F))

theorem toNat_and_31 (n : UInt32) : (n &&& 0x1F).toNat = n.toNat % 32 := by
  rw [UInt32.toNat_and]
  exact Nat.and_two_pow_sub_one_eq_mod n.toNat 5

theorem bit_eq_testBit (w n : UInt32) : bit w n = w.toNat.testBit (n.toNat % 32) := by
  have h : ((w >>> (n &&& 0x1F)) &&& 1).toNat = w.toNat >>> (n.toNat % 32) &&& 1 := by
    rw [UInt32.toNat_and, UInt32.toNat_shiftRight, toNat_and_31, Nat.mod_mod]
    rfl
  rw [bit, Nat.testBit, Nat.and_comm, ← h]
  rw [Bool.eq_iff_iff, bne_iff_ne, bne_iff_ne, Ne, Ne, ← UInt32.toNat_inj]
  rfl

theorem toNat_one_shiftLeft (n : UInt32) : ((1 : UInt32) <<< (n &&& 0x1F)).toNat = 2 ^ (n.toNat % 32) := by
  rw [UInt32.toNat_shiftLeft, toNat_and_31, Nat.mod_mod, UInt32.toNat_one, Nat.one_shiftLeft]
  exact Nat.mod_eq_of_lt (Nat.pow_lt_pow_right (by omega) (by omega))

theorem testBit_not {w : UInt32} {j : Nat} (hj : j < 32) : (~~~w).toNat.testBit j = !w.toNat.testBit j := by
  rw [UInt32.toNat_not]
  have hw := w.toNat_lt
  have := Nat.testBit_two_pow_sub_succ (x := w.toNat) (n := 32) (by omega) j
  rw [show UInt32.size - 1 - w.toNat = 2 ^ 32 - (w.toNat + 1) by simp only [UInt32.size]; omega, this]
  simp [hj]

/-- Writing one bit of a word changes that bit and no other. -/
theorem bit_withBit (w n m : UInt32) (v : Bool) :
    bit (withBit w n v) m = if n.toNat % 32 = m.toNat % 32 then v else bit w m := by
  have hm : m.toNat % 32 < 32 := Nat.mod_lt _ (by omega)
  rw [bit_eq_testBit, bit_eq_testBit, withBit]
  cases v
  · simp only [Bool.false_eq_true, ↓reduceIte]
    rw [UInt32.toNat_and, Nat.testBit_and, testBit_not hm, toNat_one_shiftLeft, Nat.testBit_two_pow]
    split <;> rename_i h <;> simp [h]
  · simp only [↓reduceIte]
    rw [UInt32.toNat_or, Nat.testBit_or, toNat_one_shiftLeft, Nat.testBit_two_pow]
    split <;> rename_i h <;> simp [h]

/-- A word is its bits. -/
theorem bit_ext {w w' : UInt32} (h : ∀ n, bit w n = bit w' n) : w = w' := by
  refine UInt32.toNat_inj.mp (Nat.eq_of_testBit_eq fun j => ?_)
  by_cases hj : j < 32
  · have hn : (UInt32.ofNat j).toNat % 32 = j := by
      rw [UInt32.toNat_ofNat']
      omega
    have := h (UInt32.ofNat j)
    rwa [bit_eq_testBit, bit_eq_testBit, hn] at this
  · have hbig : ∀ u : UInt32, u.toNat.testBit j = false := fun u =>
      Nat.testBit_lt_two_pow (Nat.lt_of_lt_of_le u.toNat_lt (Nat.pow_le_pow_right (by omega) (by omega)))
    rw [hbig w, hbig w']

theorem bit_congr {w n m : UInt32} (h : n.toNat % 32 = m.toNat % 32) : bit w n = bit w m := by
  rw [bit_eq_testBit, bit_eq_testBit, h]

/-- Writing the value that a bit has changes nothing. -/
theorem withBit_self (w n : UInt32) : withBit w n (bit w n) = w :=
  bit_ext fun m => by
    rw [bit_withBit]
    split
    · rename_i h
      exact bit_congr h
    · rfl

theorem toNat_shiftRight_5 (n : UInt32) : (n >>> 5).toNat = n.toNat / 32 := by
  rw [UInt32.toNat_shiftRight]
  exact Nat.shiftRight_eq_div_pow n.toNat 5

end Words
