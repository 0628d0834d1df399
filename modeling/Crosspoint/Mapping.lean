import Mathlib.Data.UInt

/-! Mappers, which give every node of a matrix its output. -/

namespace Crosspoint

/-- The mapper gives every node of the matrix an output of its own. -/
def Injects {α : Type} (rows cols : UInt8) (map : UInt8 → UInt8 → α) : Prop :=
  ∀ r c r' c', r < rows → c < cols → r' < rows → c' < cols → map r c = map r' c' → r = r' ∧ c = c'

/-- `HC595Helper::rowMajorIndex`. -/
def rowMajorIndex (row col cols : UInt8) : UInt16 := UInt16.ofNat (row.toNat * cols.toNat + col.toNat)

/-- The mappers of the sketches, which count the pins row by row from `first` on: `(uint8_t)(first + r * cols + c)`. -/
def rowMajorPin (first cols r c : UInt8) : UInt8 := UInt8.ofNat (first.toNat + r.toNat * cols.toNat + c.toNat)

end Crosspoint
