import Crosspoint.GPIO
import Crosspoint.Mapping

/-! A matrix on a chain of shift registers: the matrix, the bit-banged driver, and the 74HC595s behind its three pins. -/

namespace Crosspoint

structure Cascade (nOut : UInt16) where
  matrix : XPoint
  driver : ArduinoShiftRegisterDriver nOut
  chain : Chain (8 * (nBytes nOut).toNat)

namespace Cascade
variable {nOut : UInt16}

/-- One call of a public method of the matrix, with its reply and the calls that the driver makes at the pins. -/
def step (s : Cascade nOut) (i : Op × Clock) : Option (Cascade nOut × (Reply × List PinCall)) := do
  let (matrix, rep) ← s.matrix.step i
  let (driver, log) ← ArduinoShiftRegisterDriver.run s.driver rep.calls
  return (⟨matrix, driver, s.chain.replay s.driver.pins (pinCalls log)⟩, rep, pinCalls log)

abbrev run : Cascade nOut → List (Op × Clock) → Option (Cascade nOut × List ((Op × Clock) × (Reply × List PinCall))) :=
  Machine.run step

/-- At every instant of the run, after each single call at the pins, the chain meets `Q`, which may depend on the tables
    before and after the operation in progress. -/
def Always (Q : TableXPoint → TableXPoint → Chain (8 * (nBytes nOut).toNat) → Prop) (s : Cascade nOut)
    (ops : List (Op × Clock)) : Prop :=
  Machine.Along step (fun s i => ∀ t rep calls, step s i = some (t, rep, calls) →
    Traces.Throughout (Chain.take s.driver.pins) (Q s.matrix.tables t.matrix.tables) s.chain calls) s ops

end Cascade

/-- Output `j` of the chain is high; an output that there is not is low. -/
def Chain.high {n : Nat} (k : Chain n) (j : Nat) : Bool := (Buffers.load k.outputs j).getD false

/-- The chain shows the tables: an output is high exactly if it is the output of a connected node. -/
def Chain.Shows {n : Nat} (nOut : UInt16) (map : UInt8 → UInt8 → UInt16) (k : Chain n) (a : TableXPoint) : Prop :=
  ∀ j, k.high j = true ↔ ∃ r c, a.conn r c = true ∧ map r c < nOut ∧ (map r c).toNat = j

end Crosspoint
