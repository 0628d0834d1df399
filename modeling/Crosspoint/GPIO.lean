import Crosspoint.Lib.Loops
import Crosspoint.Mapping
import Crosspoint.ShiftRegister
import Crosspoint.Tables

/-! The drivers that set pins at once, without a buffer: `DirectGPIODriver`, which only keeps the levels;
    `ArduinoDirectGPIODriver`, one pin of the board for each node; and the `DualCoilDriver` of the LatchingRelay sketch, a
    SET and a RESET pin for each. -/

namespace Crosspoint
open Buffers Loops

/-! ### The virtual driver -/

structure DirectGPIODriver (nPins : UInt16) where
  map : UInt8 → UInt8 → UInt16
  pins : Vector Bool nPins.toNat

namespace DirectGPIODriver
variable {nPins : UInt16}

def new (nPins : UInt16) (map : UInt8 → UInt8 → UInt16) : DirectGPIODriver nPins := ⟨map, Vector.replicate _ false⟩

def begin (d : DirectGPIODriver nPins) : DirectGPIODriver nPins := d

def setNodeHardware (d : DirectGPIODriver nPins) (r c : UInt8) (state : Bool) : Option (DirectGPIODriver nPins) :=
  let idx := d.map r c
  if idx ≥ nPins then some d
  else (store d.pins idx.toNat state).map fun pins => { d with pins := pins }

def commitPhysicalUpdates (d : DirectGPIODriver nPins) : DirectGPIODriver nPins := d

def pinState (d : DirectGPIODriver nPins) (idx : UInt16) : Option Bool :=
  if idx ≥ nPins then some false else load d.pins idx.toNat

/-- The driver as a `XPointDriver`. It overrides neither `setNodeLevel` nor `releaseNode`, which does nothing. -/
def handle (d : DirectGPIODriver nPins) : DriverCall → Option (DirectGPIODriver nPins)
  | .begin => some d.begin
  | .setNodeHardware r c state => d.setNodeHardware r c state
  | .setNodeLevel r c level => d.setNodeHardware r c (decide (level > 0))
  | .releaseNode _ _ => some d
  | .commitPhysicalUpdates => some d.commitPhysicalUpdates

abbrev run : DirectGPIODriver nPins → List DriverCall → Option (DirectGPIODriver nPins × List (DriverCall × Unit)) :=
  Machine.run fun d call => (d.handle call).map fun d => (d, ())

end DirectGPIODriver

/-! ### One pin for each node -/

structure ArduinoDirectGPIODriver where
  rows : UInt8
  cols : UInt8
  map : UInt8 → UInt8 → UInt8
  maxPin : UInt8

namespace ArduinoDirectGPIODriver

/-- The pin of node `(r, c)` as the Arduino core takes it. -/
def pin (d : ArduinoDirectGPIODriver) (r c : UInt8) : Int := (d.map r c).toNat

def begin (d : ArduinoDirectGPIODriver) : List PinCall :=
  (below d.rows).flatMap fun r => (below d.cols).flatMap fun c =>
    if d.map r c ≤ d.maxPin then [.pinMode (d.pin r c), .digitalWrite (d.pin r c) false] else []

def setNodeHardware (d : ArduinoDirectGPIODriver) (r c : UInt8) (state : Bool) : List PinCall :=
  if d.map r c > d.maxPin then [] else [.pinMode (d.pin r c), .digitalWrite (d.pin r c) state]

/-- The driver as a `XPointDriver`, which keeps no state. It overrides neither `setNodeLevel` nor `releaseNode`, which
    does nothing. -/
def handle (d : ArduinoDirectGPIODriver) : DriverCall → List PinCall
  | .begin => d.begin
  | .setNodeHardware r c state => d.setNodeHardware r c state
  | .setNodeLevel r c level => d.setNodeHardware r c (decide (level > 0))
  | .releaseNode _ _ | .commitPhysicalUpdates => []

end ArduinoDirectGPIODriver

/-! ### Two pins for each node -/

structure DualCoilDriver where
  rows : UInt8
  cols : UInt8

namespace DualCoilDriver

/-- `setPin`: two columns of two pins each, from pin 2 on. -/
def setPin (r c : UInt8) : UInt8 := UInt8.ofNat (2 + (r.toNat * 2 + c.toNat) * 2)

def resetPin (r c : UInt8) : UInt8 := UInt8.ofNat (3 + (r.toNat * 2 + c.toNat) * 2)

/-- The SET coil of node `(r, c)`, or its RESET coil. -/
def coil (r c : UInt8) (set : Bool) : Int := if set then (setPin r c).toNat else (resetPin r c).toNat

def begin (d : DualCoilDriver) : List PinCall :=
  (below d.rows).flatMap fun r => (below d.cols).flatMap fun c =>
    [.pinMode (coil r c true), .digitalWrite (coil r c true) false, .pinMode (coil r c false),
      .digitalWrite (coil r c false) false]

def setNodeHardware (row col : UInt8) (state : Bool) : List PinCall :=
  if state then [.digitalWrite (coil row col true) true, .digitalWrite (coil row col false) false]
  else [.digitalWrite (coil row col true) false, .digitalWrite (coil row col false) true]

def releaseNode (row col : UInt8) : List PinCall :=
  [.digitalWrite (coil row col true) false, .digitalWrite (coil row col false) false]

/-- The driver as a `XPointDriver`, which keeps no state. It overrides neither `setNodeLevel` nor
    `commitPhysicalUpdates`, which does nothing. -/
def handle (d : DualCoilDriver) : DriverCall → List PinCall
  | .begin => d.begin
  | .setNodeHardware r c state => setNodeHardware r c state
  | .setNodeLevel r c level => setNodeHardware r c (decide (level > 0))
  | .releaseNode r c => releaseNode r c
  | .commitPhysicalUpdates => []

end DualCoilDriver

/-! ### The board -/

/-- The pins of a board: which of them are outputs, and the level that was last written to each. -/
structure Board where
  output : Int → Bool
  level : Int → Bool

namespace Board

/-- After a reset every pin is an input and low. -/
def reset : Board := ⟨fun _ => false, fun _ => false⟩

def take (k : Board) : PinCall → Board
  | .pinMode pin => { k with output := Function.update k.output pin true }
  | .digitalWrite pin level => { k with level := Function.update k.level pin level }

def replay (k : Board) (calls : List PinCall) : Board := calls.foldl take k

/-- The board drives the pin high. -/
def high (k : Board) (pin : Int) : Bool := k.output pin && k.level pin

end Board

/-- The call raises no level. -/
def PinCall.Dims : PinCall → Prop
  | .pinMode _ => True
  | .digitalWrite _ level => level = false

/-- The pin that a call is about. -/
def PinCall.pin : PinCall → Int
  | .pinMode pin => pin
  | .digitalWrite pin _ => pin

/-! ### A matrix on a board -/

/-- A matrix, and the board whose pins its driver sets. -/
structure Bench where
  matrix : XPoint
  board : Board

namespace Bench

/-- One call of a public method of the matrix; `handle` is what the driver makes of the calls that it gets. -/
def step (handle : DriverCall → List PinCall) (s : Bench) (i : Op × Clock) : Option (Bench × Reply) := do
  let (matrix, rep) ← s.matrix.step i
  return (⟨matrix, s.board.replay (rep.calls.flatMap handle)⟩, rep)

abbrev run (handle : DriverCall → List PinCall) : Bench → List (Op × Clock) →
    Option (Bench × List ((Op × Clock) × Reply)) :=
  Machine.run (step handle)

/-- At every instant of the run, after each single call to the Arduino core, the board meets `Q`, which may depend on
    the tables as the operation in progress leaves them. -/
def Always (handle : DriverCall → List PinCall) (Q : TableXPoint → Board → Prop) (s : Bench)
    (ops : List (Op × Clock)) : Prop :=
  Machine.Along (step handle) (fun s i => ∀ t rep, step handle s i = some (t, rep) →
    Traces.Throughout Board.take (Q t.matrix.tables) s.board (rep.calls.flatMap handle)) s ops

end Bench

/-- The rules hold of what is on: no column has two locked rows on, and no exclusive column two rows. -/
structure TableXPoint.Apart (a : TableXPoint) (on : UInt8 → UInt8 → Bool) : Prop where
  lock : ∀ r s c, r < a.rows → s < a.rows → c < a.cols → r ≠ s → a.lock r s = true → ¬(on r c = true ∧ on s c = true)
  excl : ∀ r s c, r < a.rows → s < a.rows → c < a.cols → r ≠ s → a.excl c = true → ¬(on r c = true ∧ on s c = true)

end Crosspoint
