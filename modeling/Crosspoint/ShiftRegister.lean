import Crosspoint.Driver
import Crosspoint.Lib.Buffers
import Crosspoint.Lib.Bytes
import Crosspoint.Lib.Machine
import Crosspoint.Lib.ShiftRegisters
import Crosspoint.Lib.Traces

/-! `ShiftRegisterDriver` and `ArduinoShiftRegisterDriver`: a shadow byte for each 74HC595 of a chain. The first only
    keeps the bytes; the second clocks them out at three pins, and the chain is what listens at those. -/

namespace Crosspoint
open Buffers

/-- `_nBytes`, the size of the shadow buffer. -/
def nBytes (nOut : UInt16) : UInt16 := UInt16.ofNat ((nOut.toNat + 7) / 8)

/-- What both drivers keep for `nOut` outputs: the mapper and the shadow buffer. -/
structure ShadowBytes (nOut : UInt16) where
  map : UInt8 → UInt8 → UInt16
  buf : Vector UInt8 (nBytes nOut).toNat

namespace ShadowBytes
variable {nOut : UInt16}

def new (nOut : UInt16) (map : UInt8 → UInt8 → UInt16) : ShadowBytes nOut := ⟨map, Vector.replicate _ 0⟩

/-- The `setNodeHardware` of both drivers. Indices out of range are ignored. -/
def setNodeHardware (s : ShadowBytes nOut) (r c : UInt8) (state : Bool) : Option (ShadowBytes nOut) :=
  let idx := s.map r c
  if idx ≥ nOut then some s
  else do
    let bi := idx / 8
    let b := (idx % 8).toUInt8
    let byte ← load s.buf bi.toNat
    let buf ← store s.buf bi.toNat (Bytes.withBit byte b state)
    return { s with buf := buf }

end ShadowBytes

/-! ### The virtual driver -/

structure ShiftRegisterDriver (nOut : UInt16) where
  shadow : ShadowBytes nOut

namespace ShiftRegisterDriver
variable {nOut : UInt16}

def new (nOut : UInt16) (map : UInt8 → UInt8 → UInt16) : ShiftRegisterDriver nOut := ⟨.new nOut map⟩

def begin (d : ShiftRegisterDriver nOut) : ShiftRegisterDriver nOut := d

def setNodeHardware (d : ShiftRegisterDriver nOut) (r c : UInt8) (state : Bool) : Option (ShiftRegisterDriver nOut) :=
  (d.shadow.setNodeHardware r c state).map .mk

def commitPhysicalUpdates (d : ShiftRegisterDriver nOut) : ShiftRegisterDriver nOut := d

/-- Byte `idx` of the shadow buffer, or 0 out of range. -/
def byteAt (d : ShiftRegisterDriver nOut) (idx : UInt16) : UInt8 :=
  if h : idx < nBytes nOut then d.shadow.buf.get ⟨idx.toNat, UInt16.lt_iff_toNat_lt.mp h⟩ else 0

/-- The driver as a `XPointDriver`. It overrides neither `setNodeLevel` nor `releaseNode`, which does nothing. -/
def handle (d : ShiftRegisterDriver nOut) : DriverCall → Option (ShiftRegisterDriver nOut)
  | .begin => some d.begin
  | .setNodeHardware r c state => d.setNodeHardware r c state
  | .setNodeLevel r c level => d.setNodeHardware r c (decide (level > 0))
  | .releaseNode _ _ => some d
  | .commitPhysicalUpdates => some d.commitPhysicalUpdates

abbrev run : ShiftRegisterDriver nOut → List DriverCall → Option (ShiftRegisterDriver nOut × List (DriverCall × Unit)) :=
  Machine.run fun d call => (d.handle call).map fun d => (d, ())

end ShiftRegisterDriver

/-! ### The bit-banged driver -/

/-- The three pins of a chain. -/
structure Pins where
  dPin : Int
  ckPin : Int
  ltPin : Int
  distinct : dPin ≠ ckPin ∧ dPin ≠ ltPin ∧ ckPin ≠ ltPin

/-- A call of the Arduino core: `OUTPUT` is the only mode that is set, and `HIGH` is `true`. -/
inductive PinCall
  | pinMode (pin : Int)
  | digitalWrite (pin : Int) (level : Bool)
deriving DecidableEq, Repr

structure ArduinoShiftRegisterDriver (nOut : UInt16) where
  shadow : ShadowBytes nOut
  pins : Pins

namespace ArduinoShiftRegisterDriver
variable {nOut : UInt16}

def new (nOut : UInt16) (map : UInt8 → UInt8 → UInt16) (pins : Pins) : ArduinoShiftRegisterDriver nOut :=
  ⟨.new nOut map, pins⟩

def setNodeHardware (d : ArduinoShiftRegisterDriver nOut) (r c : UInt8) (state : Bool) :
    Option (ArduinoShiftRegisterDriver nOut) :=
  (d.shadow.setNodeHardware r c state).map fun shadow => { d with shadow := shadow }

/-- One turn of the bit loop: the level of the data pin, and a clock pulse. -/
def clockBit (d : ArduinoShiftRegisterDriver nOut) (level : Bool) : List PinCall :=
  [.digitalWrite d.pins.ckPin false, .digitalWrite d.pins.dPin level, .digitalWrite d.pins.ckPin true]

/-- The bit loop over one byte, from bit 7 down to bit 0. -/
def clockByte (d : ArduinoShiftRegisterDriver nOut) (byte : UInt8) : List PinCall :=
  (List.range 8).reverse.flatMap fun b => d.clockBit (Bytes.bit byte (UInt8.ofNat b))

/-- `commitPhysicalUpdates`, with the calls it makes: the bytes from the last down to the first, then the latch. -/
def commitPhysicalUpdates (d : ArduinoShiftRegisterDriver nOut) : Option (List PinCall) := do
  let sent ← (List.range (nBytes nOut).toNat).reverse.mapM fun bi => (load d.shadow.buf bi).map d.clockByte
  return .digitalWrite d.pins.ltPin false :: sent.flatten ++ [.digitalWrite d.pins.ltPin true]

def begin (d : ArduinoShiftRegisterDriver nOut) : Option (List PinCall) := do
  let sent ← d.commitPhysicalUpdates
  return [.pinMode d.pins.dPin, .pinMode d.pins.ckPin, .pinMode d.pins.ltPin, .digitalWrite d.pins.dPin false,
    .digitalWrite d.pins.ckPin false, .digitalWrite d.pins.ltPin false] ++ sent

/-- The driver as a `XPointDriver`. It overrides neither `setNodeLevel` nor `releaseNode`, which does nothing. -/
def handle (d : ArduinoShiftRegisterDriver nOut) : DriverCall → Option (ArduinoShiftRegisterDriver nOut × List PinCall)
  | .begin => d.begin.map fun calls => (d, calls)
  | .setNodeHardware r c state => (d.setNodeHardware r c state).map fun d => (d, [])
  | .setNodeLevel r c level => (d.setNodeHardware r c (decide (level > 0))).map fun d => (d, [])
  | .releaseNode _ _ => some (d, [])
  | .commitPhysicalUpdates => d.commitPhysicalUpdates.map fun calls => (d, calls)

abbrev run : ArduinoShiftRegisterDriver nOut → List DriverCall →
    Option (ArduinoShiftRegisterDriver nOut × List (DriverCall × List PinCall)) := Machine.run handle

end ArduinoShiftRegisterDriver

/-! ### The chain -/

/-- A chain of `n` stages: the levels at its pins, the stages, and the latched outputs, the ones nearest to the
    data pin first. -/
structure Chain (n : Nat) where
  data : Bool
  clock : Bool
  latch : Bool
  stages : Vector Bool n
  outputs : Vector Bool n

namespace Chain
variable {n : Nat}

/-- What a call does to the chain at the pins `p`: a rising clock shifts the stages by one, a rising latch
    copies them to the outputs. -/
def take (p : Pins) (k : Chain n) : PinCall → Chain n
  | .pinMode _ => k
  | .digitalWrite pin level =>
    if pin = p.dPin then { k with data := level }
    else if pin = p.ckPin then
      { k with clock := level, stages := if level && !k.clock then ShiftRegisters.push k.stages k.data else k.stages }
    else if pin = p.ltPin then
      { k with latch := level, outputs := if level && !k.latch then k.stages else k.outputs }
    else k

def replay (p : Pins) (k : Chain n) (calls : List PinCall) : Chain n := calls.foldl (take p) k

end Chain

/-- The calls at the pins in a run. -/
def pinCalls (log : List (DriverCall × List PinCall)) : List PinCall := log.flatMap fun e => e.2

/-- The state of the last call that sets output `j`, low if there is none. -/
def lastSet (map : UInt8 → UInt8 → UInt16) (calls : List DriverCall) (j : Nat) : Bool :=
  (Traces.lastWhere (fun w => w.1.toNat == j) (calls.filterMap (DriverCall.sets map))).any Prod.snd

/-- The outputs that the calls ask for: those from `nOut` on stay low. -/
def intended (nOut : UInt16) (map : UInt8 → UInt8 → UInt16) (calls : List DriverCall) (j : Nat) : Bool :=
  decide (j < nOut.toNat) && lastSet map calls j

/-- The call ends with a commit. -/
def DriverCall.commits : DriverCall → Bool
  | .begin | .commitPhysicalUpdates => true
  | _ => false

/-- A commit leaves the chain, which was `k` at first, with the intended outputs, and these are the bytes of the
    virtual driver after the same calls. -/
def Loads (nOut : UInt16) (map : UInt8 → UInt8 → UInt16) (p : Pins) (k : Chain (8 * (nBytes nOut).toNat))
    (pre : List (DriverCall × List PinCall)) (e : DriverCall × List PinCall) : Prop :=
  e.1.commits = true → ∃ v vlog, ShiftRegisterDriver.run (.new nOut map) (pre.map Prod.fst) = some (v, vlog) ∧
    ∀ j : Fin (8 * (nBytes nOut).toNat), (k.replay p (pinCalls (pre ++ [e]))).outputs.get j =
        intended nOut map (pre.map Prod.fst) j ∧
      (k.replay p (pinCalls (pre ++ [e]))).outputs.get j =
        Bytes.bit (v.byteAt (UInt16.ofNat (j / 8))) (UInt8.ofNat (j % 8))

end Crosspoint
