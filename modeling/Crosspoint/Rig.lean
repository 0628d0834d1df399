import Crosspoint.Packets
import Crosspoint.XPoint

/-! A matrix together with the PWM driver that it drives, from the calls of the program down to the packet. -/

namespace Crosspoint

structure Rig (nChips : UInt8) where
  matrix : XPoint
  driver : TLC59711Driver nChips

/-- The channel is neither off nor full on. -/
def TLC59711Driver.Dimmed {nChips : UInt8} (d : TLC59711Driver nChips) (ch : UInt16) : Prop :=
  0 < d.pwm ch ∧ d.pwm ch < 0xFFFF

namespace Rig
variable {nChips : UInt8}

/-- One call of a public method of the matrix; the driver takes the calls that it makes. -/
def step (s : Rig nChips) (i : Op × Clock) : Option (Rig nChips × Reply) := do
  let (matrix, rep) ← s.matrix.step i
  let driver ← rep.calls.foldlM TLC59711Driver.handle s.driver
  return (⟨matrix, driver⟩, rep)

abbrev run : Rig nChips → List (Op × Clock) → Option (Rig nChips × List ((Op × Clock) × Reply)) := Machine.run step

/-- The value of the channel of node `(r, c)`, decoded from the packet. -/
def shown (s : Rig nChips) (r c : UInt8) : UInt16 :=
  TLC59711Driver.decode nChips.toNat s.driver.pkt.toList (s.driver.map r c).toNat

/-- The operation is not a `connect` that the rules let through while the channel of its node is dimmed. -/
def Undimmed (s : Rig nChips) (i : Op × Clock) : Prop :=
  ∀ row col, i.1 = .connect row col → row < s.matrix.rows → col < s.matrix.cols →
    s.matrix.blocked row col = some false → ¬s.driver.Dimmed (s.driver.map row col)

end Rig

/-- The mapper gives every node of the matrix a channel of its own. -/
structure Wired (nChips rows cols : UInt8) (map : UInt8 → UInt8 → UInt16) : Prop where
  chips : nChips ≤ 128
  inside : ∀ r c, r < rows → c < cols → map r c < TLC59711Driver.nCh nChips
  apart : ∀ r c r' c', r < rows → c < cols → r' < rows → c' < cols → map r c = map r' c' → r = r' ∧ c = c'

/-- The value that an operation with result `ret` commands for node `(r, c)`, if it succeeds and concerns the node. -/
def Op.commands (r c : UInt8) : Op → Option Bool → Option UInt16
  | .connect row col, some true => if row = r ∧ col = c then some 0xFFFF else none
  | .disconnect row col, some true => if row = r ∧ col = c then some 0x0000 else none
  | .setLevel row col level, some true => if row = r ∧ col = c then some level else none
  | .clearAll, _ => some 0x0000
  | _, _ => none

/-- The value commanded by the last successful operation on node `(r, c)`, at first 0. -/
def commanded (log : List ((Op × Clock) × Reply)) (r c : UInt8) : UInt16 :=
  (log.filterMap fun e => e.1.1.commands r c e.2.ret).getLast?.getD 0

end Crosspoint
