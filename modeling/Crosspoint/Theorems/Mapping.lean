import Crosspoint.Mapping
import Crosspoint.Theorems.Layout

/-! Counting row by row gives every node an output of its own, as long as the counter is wide enough. -/

namespace Crosspoint

variable {rows cols first r c : UInt8}

theorem rowMajorIndex_toNat : (rowMajorIndex r c cols).toNat = r.toNat * cols.toNat + c.toNat := by
  have := XPoint.mul_le r cols
  have := c.toNat_lt
  rw [rowMajorIndex, UInt16.toNat_ofNat']
  exact Nat.mod_eq_of_lt (by omega)

/-- 16 bits are enough for every matrix. -/
theorem injects_rowMajorIndex : Injects rows cols fun r c => rowMajorIndex r c cols := by
  intro r c r' c' hr hc hr' hc' heq
  have heq := congrArg UInt16.toNat heq
  rw [rowMajorIndex_toNat, rowMajorIndex_toNat] at heq
  obtain ⟨h1, h2⟩ := XPoint.entry_inj (UInt8.lt_iff_toNat_lt.mp hc) (UInt8.lt_iff_toNat_lt.mp hc') heq
  exact ⟨UInt8.toNat_inj.mp h1, UInt8.toNat_inj.mp h2⟩

theorem rowMajorPin_toNat (h : first.toNat + rows.toNat * cols.toNat ≤ 256) (hr : r < rows) (hc : c < cols) :
    (rowMajorPin first cols r c).toNat = first.toNat + r.toNat * cols.toNat + c.toNat ∧
      (rowMajorPin first cols r c).toNat < first.toNat + rows.toNat * cols.toNat := by
  have hlt := XPoint.entry_lt (UInt8.lt_iff_toNat_lt.mp hr) (UInt8.lt_iff_toNat_lt.mp hc)
  have heq : (rowMajorPin first cols r c).toNat = first.toNat + r.toNat * cols.toNat + c.toNat := by
    rw [rowMajorPin, UInt8.toNat_ofNat']
    exact Nat.mod_eq_of_lt (by omega)
  exact ⟨heq, by omega⟩

theorem injects_rowMajorPin (h : first.toNat + rows.toNat * cols.toNat ≤ 256) :
    Injects rows cols (rowMajorPin first cols) := by
  intro r c r' c' hr hc hr' hc' heq
  have heq := congrArg UInt8.toNat heq
  rw [(rowMajorPin_toNat h hr hc).1, (rowMajorPin_toNat h hr' hc').1, Nat.add_assoc, Nat.add_assoc] at heq
  obtain ⟨h1, h2⟩ := XPoint.entry_inj (UInt8.lt_iff_toNat_lt.mp hc) (UInt8.lt_iff_toNat_lt.mp hc') (Nat.add_left_cancel heq)
  exact ⟨UInt8.toNat_inj.mp h1, UInt8.toNat_inj.mp h2⟩

end Crosspoint
