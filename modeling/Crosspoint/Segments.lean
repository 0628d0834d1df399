import Crosspoint.Lib.Traces
import Crosspoint.TCA9548A

/-! The segments behind the multiplexers of one bus, and who hears a device write there. -/

namespace Crosspoint

/-- The devices behind the multiplexers: `devices m k a` says that channel `k` of multiplexer `m` has a
    device of address `a`. -/
abbrev Devices := UInt8 → Fin 8 → UInt8 → Prop

/-- The device that `w` addresses on channel `k` of multiplexer `m` hears it: there is one, and the channel is
    on in the control register of its multiplexer. -/
def heard (devices : Devices) (regs : Registers) (w : BusWrite) (m : UInt8) (k : Fin 8) : Prop :=
  isMux m = true ∧ devices m k w.addr ∧ (regs w.bus m).toNat.testBit k = true

/-- The object that a call writes through. -/
def MuxCall.writer : MuxCall → Option TCA9548AInterface
  | .begin _ => none
  | .writeRegister o _ _ _ => some o

/-- The object of the latest write through multiplexer `m`. -/
def lastWriter (calls : List MuxCall) (m : UInt8) : Option TCA9548AInterface :=
  Traces.lastWhere (fun o => o.muxAddr == m) (calls.filterMap MuxCall.writer)

/-- After the run so far, the write of call `e.1` is heard on the segment of its object and on no other. -/
def Isolated (b : I2CInterface) (devices : Devices) (pre : List (MuxCall × List BusWrite)) (e : MuxCall × List BusWrite) :
    Prop :=
  ∀ o channel devAddr reg val, e.1 = .writeRegister o devAddr reg val → o = .new b o.muxAddr channel →
    ∃ selects, e.2 = selects ++ [b.writeRegister devAddr reg val] ∧
      ∀ m k, heard devices (registers (fun _ _ => 0) (traffic pre ++ selects)) (b.writeRegister devAddr reg val) m k ↔
        m = o.muxAddr ∧ k = low3 channel ∧ devices m k devAddr

/-- After the calls so far, no other multiplexer was left on a channel that has a device of the address that
    `call` writes to. -/
def Undisturbed (b : I2CInterface) (devices : Devices) (pre : List MuxCall) (call : MuxCall) : Prop :=
  ∀ o devAddr reg val, call = .writeRegister o devAddr reg val →
    ∀ m channel, m ≠ o.muxAddr → lastWriter pre m = some (.new b m channel) → ¬devices m (low3 channel) devAddr

end Crosspoint
