import Crosspoint.Driver
import Crosspoint.I2C
import Crosspoint.Lib.Bytes
import Crosspoint.Lib.Machine

/-! `MCP23017Driver`: a 16-bit GPIO expander that is driven through shadow copies of its two output latches, and the
    device at the other end of the bus. -/

namespace Crosspoint

/-! ### Registers of Bank 0 -/

def REG_IODIRA : UInt8 := 0x00
def REG_IODIRB : UInt8 := 0x01
def REG_OLATA : UInt8 := 0x14
def REG_OLATB : UInt8 := 0x15

/-- `i2c` is `none` for a null pointer. -/
structure MCP23017Driver where
  i2c : Option I2CInterface
  addr : UInt8
  map : UInt8 → UInt8 → UInt8
  ga : UInt8
  gb : UInt8

namespace MCP23017Driver

def new (i2c : Option I2CInterface) (addr : UInt8) (map : UInt8 → UInt8 → UInt8) : MCP23017Driver := ⟨i2c, addr, map, 0, 0⟩

/-- `_commit`, with the writes that it puts on the bus. -/
def commit (d : MCP23017Driver) : List BusWrite :=
  match d.i2c with
  | none => []
  | some i2c => [i2c.writeRegister d.addr REG_OLATA d.ga, i2c.writeRegister d.addr REG_OLATB d.gb]

def begin (d : MCP23017Driver) : List BusWrite :=
  match d.i2c with
  | none => []
  | some i2c => [i2c.writeRegister d.addr REG_IODIRA 0x00, i2c.writeRegister d.addr REG_IODIRB 0x00] ++ d.commit

/-- The shadow bit of `pin`, on port A below 8 and on port B from 8 on. -/
def setPin (d : MCP23017Driver) (pin : UInt8) (state : Bool) : MCP23017Driver :=
  if pin < 8 then { d with ga := Bytes.withBit d.ga pin state }
  else { d with gb := Bytes.withBit d.gb (pin - 8) state }

def setNodeHardware (d : MCP23017Driver) (r c : UInt8) (state : Bool) : MCP23017Driver × List BusWrite :=
  let d := d.setPin (d.map r c) state
  (d, d.commit)

/-- Nothing: the writes are made inside `setNodeHardware`. -/
def commitPhysicalUpdates (d : MCP23017Driver) : MCP23017Driver := d

/-- The driver as a `XPointDriver`. It overrides neither `setNodeLevel` nor `releaseNode`, which does nothing. -/
def handle (d : MCP23017Driver) : DriverCall → MCP23017Driver × List BusWrite
  | .begin => (d, d.begin)
  | .setNodeHardware r c state => d.setNodeHardware r c state
  | .setNodeLevel r c level => d.setNodeHardware r c (decide (level > 0))
  | .releaseNode _ _ => (d, [])
  | .commitPhysicalUpdates => (d.commitPhysicalUpdates, [])

abbrev run : MCP23017Driver → List DriverCall → Option (MCP23017Driver × List (DriverCall × List BusWrite)) :=
  Machine.run fun d call => some (d.handle call)

end MCP23017Driver

/-- All bus writes of a run of the driver. -/
def busWrites (log : List (DriverCall × List BusWrite)) : List BusWrite := log.flatMap fun e => e.2

/-! ### The device -/

/-- The registers of the device that the driver writes. -/
structure MCP23017 where
  iodira : UInt8
  iodirb : UInt8
  olata : UInt8
  olatb : UInt8
deriving DecidableEq, Repr

namespace MCP23017

def write (m : MCP23017) (reg val : UInt8) : MCP23017 :=
  if reg = REG_IODIRA then { m with iodira := val }
  else if reg = REG_IODIRB then { m with iodirb := val }
  else if reg = REG_OLATA then { m with olata := val }
  else if reg = REG_OLATB then { m with olatb := val }
  else m

/-- What a bus write does to the device at `addr` of bus `bus`. -/
def take (bus : Nat) (addr : UInt8) (m : MCP23017) (w : BusWrite) : MCP23017 :=
  if w.bus = bus ∧ w.addr = addr then
    match w.bytes with
    | [reg, val] => m.write reg val
    | _ => m
  else m

def replay (bus : Nat) (addr : UInt8) (m : MCP23017) (ws : List BusWrite) : MCP23017 := ws.foldl (take bus addr) m

/-- The level of output pin `p`: port A below 8, port B from 8 on. -/
def pin (m : MCP23017) (p : UInt8) : Bool := if p < 8 then Bytes.bit m.olata p else Bytes.bit m.olatb (p - 8)

/-- All pins are outputs. -/
def Outputs (m : MCP23017) : Prop := m.iodira = 0 ∧ m.iodirb = 0

/-- From `m` to `m'` no pin changes but `p`, and no direction. -/
structure DiffersAt (p : Option UInt8) (m m' : MCP23017) : Prop where
  iodira : m'.iodira = m.iodira
  iodirb : m'.iodirb = m.iodirb
  pins : ∀ q, p ≠ some q → m'.pin q = m.pin q

end MCP23017

/-- The write is to one of the output latches. -/
def BusWrite.latches (w : BusWrite) : Prop := ∃ val, w.bytes = [REG_OLATA, val] ∨ w.bytes = [REG_OLATB, val]

/-- All pins are outputs before a write to a latch, and at every later moment. -/
def Directed (bus : Nat) (addr : UInt8) (m : MCP23017) (ws : List BusWrite) : Prop :=
  ∀ pre w post, ws = pre ++ w :: post → w.latches →
    ∀ mid rest, w :: post = mid ++ rest → (m.replay bus addr (pre ++ mid)).Outputs

/-- After each single write of a call but the first, `begin()`, the device differs from what it was before the call
    at most in the pin that the call sets. -/
def Steady (map : UInt8 → UInt8 → UInt8) (bus : Nat) (addr : UInt8) (m : MCP23017)
    (pre : List (DriverCall × List BusWrite)) (e : DriverCall × List BusWrite) : Prop :=
  pre ≠ [] → ∀ ws rest, e.2 = ws ++ rest → MCP23017.DiffersAt ((e.1.sets map).map Prod.fst)
    (m.replay bus addr (busWrites pre)) (m.replay bus addr (busWrites pre ++ ws))

/-- The mapper gives every node of the matrix a pin of its own. -/
structure Pinned (rows cols : UInt8) (map : UInt8 → UInt8 → UInt8) : Prop where
  inside : ∀ r c, r < rows → c < cols → map r c < 16
  apart : ∀ r c r' c', r < rows → c < cols → r' < rows → c' < cols → map r c = map r' c' → r = r' ∧ c = c'

end Crosspoint
