import Crosspoint.Lib.ShiftRegisters
import Crosspoint.Lib.Traces
import Crosspoint.TLC59711

/-! What the packet of a chain of chips is meant to be, and which values the channels were last given. -/

namespace Crosspoint.TLC59711Driver

/-- The two bytes of a channel value, high byte first. -/
def channelBytes (v : UInt16) : List UInt8 := [(v >>> 8).toUInt8, v.toUInt8]

/-- What chip `k` is to hold: the control word and its twelve channels, the highest first. -/
def chipBytes (value : Nat → UInt16) (k : Nat) : List UInt8 :=
  [0x96, 0xDF, 0xFF, 0xFF] ++ (List.range 12).flatMap fun i => channelBytes (value (12 * k + (11 - i)))

/-- Channel `ch` as the packet for `n` chips has it. -/
def decode (n : Nat) (packet : List UInt8) (ch : Nat) : UInt16 :=
  match (packet.drop ((n - 1 - ch / 12) * 28 + (4 + (11 - ch % 12) * 2))).take 2 with
  | [high, low] => high.toUInt16 <<< 8 ||| low.toUInt16
  | _ => 0

/-- The packet for `n` chips carries the channel values: it has the bytes of chip `k` at place `n - 1 - k`,
    shifting it through the registers of the chain leaves every chip with its own bytes, and it decodes to
    the values. -/
structure Shows (n : Nat) (value : Nat → UInt16) (packet : List UInt8) : Prop where
  size : packet.length = n * 28
  layout : ∀ k < n, (packet.drop ((n - 1 - k) * 28)).take 28 = chipBytes value k
  shifted : ∀ regs : List (List UInt8), regs.length = n → (∀ r ∈ regs, r.length = 28) →
    ShiftRegisters.shiftAll regs packet = (List.range n).map (chipBytes value)
  decoded : ∀ ch < n * 12, decode n packet ch = value ch

/-- The channel that a call addresses, and the value it gives it. -/
def Call.target (map : UInt8 → UInt8 → UInt16) : Call → Option (UInt16 × UInt16)
  | .driver (.setNodeHardware r c state) => some (map r c, if state then 0xFFFF else 0)
  | .driver (.setNodeLevel r c level) => some (map r c, level)
  | .setPWM ch val => some (ch, val)
  | .driver _ => none

/-- The latest value that the calls gave to channel `ch`, at first 0. -/
def current (map : UInt8 → UInt8 → UInt16) (calls : List Call) (ch : Nat) : UInt16 :=
  ((Traces.lastWhere (fun w => w.1.toNat == ch) (calls.filterMap (Call.target map))).map Prod.snd).getD 0

end Crosspoint.TLC59711Driver
