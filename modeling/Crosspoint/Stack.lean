import Crosspoint.MCP23017
import Crosspoint.TCA9548A
import Crosspoint.XPoint

/-! Several matrices on one bus, each with an expander of its own behind a channel of a multiplexer. The drivers write
    through the decorated interfaces they were constructed with, and all of these share the cache of the selected
    channels. -/

namespace Crosspoint

/-- A matrix with the driver of its expander. -/
structure Station where
  matrix : XPoint
  driver : MCP23017Driver

/-- What a station does in an operation: its reply, and the register writes of its driver. -/
structure StationReply where
  rep : Reply
  writes : List BusWrite
deriving DecidableEq, Repr

namespace Station

/-- One call of a public method of the matrix; the driver takes the calls that it makes. -/
def step (s : Station) (i : Op × Clock) : Option (Station × StationReply) := do
  let (matrix, rep) ← s.matrix.step i
  let (driver, log) ← s.driver.run rep.calls
  return (⟨matrix, driver⟩, ⟨rep, busWrites log⟩)

abbrev run : Station → List (Op × Clock) → Option (Station × List ((Op × Clock) × StationReply)) := Machine.run step

end Station

/-- The register writes of a station in a run, in order. -/
def stationWrites (log : List ((Op × Clock) × StationReply)) : List BusWrite := log.flatMap fun e => e.2.writes

/-- A write of a driver that was constructed with a decorated interface: `writeRegister` is a virtual method, so the
    write is a call on the decorator. -/
def TCA9548AInterface.forward (o : TCA9548AInterface) (w : BusWrite) : List MuxCall :=
  match w.bytes with
  | [reg, val] => [.writeRegister o w.addr reg val]
  | _ => []

/-- Where the expander of a station is: behind which channel of which multiplexer, and at which address. -/
structure Place where
  mux : UInt8
  channel : UInt8
  addr : UInt8
deriving DecidableEq, Repr

namespace Place

/-- The interface object of the place, over bus `b`. -/
def port (p : Place) (b : I2CInterface) : TCA9548AInterface := .new b p.mux p.channel

/-- The driver object that is constructed with the interface of the place. -/
def driver (p : Place) (b : I2CInterface) (map : UInt8 → UInt8 → UInt8) : MCP23017Driver := .new (some b) p.addr map

end Place

/-- The stations, and the cache that their interface objects share. -/
structure Stack (κ : Type) where
  stations : κ → Station
  cache : ChannelCache

/-- A call of the program: `begin()` on the interface object of a station, or a method of its matrix. -/
inductive StackOp (κ : Type)
  | port (k : κ)
  | matrix (k : κ) (i : Op × Clock)

/-- What a call does: the reply and the writes of the station, and what goes over the bus. -/
structure StackReply where
  own : StationReply
  traffic : List BusWrite

namespace Stack
variable {κ : Type} [DecidableEq κ]

def step (b : I2CInterface) (places : κ → Place) (s : Stack κ) : StackOp κ → Option (Stack κ × StackReply)
  | .port k =>
    let (cache, ws) := ((places k).port b).begin s.cache
    some ({ s with cache := cache }, ⟨⟨⟨none, []⟩, []⟩, ws⟩)
  | .matrix k i => do
    let (station, rep) ← (s.stations k).step i
    let (cache, log) ← MuxCall.run s.cache (rep.writes.flatMap ((places k).port b).forward)
    return (⟨Function.update s.stations k station, cache⟩, ⟨rep, traffic log⟩)

abbrev run (b : I2CInterface) (places : κ → Place) :
    Stack κ → List (StackOp κ) → Option (Stack κ × List (StackOp κ × StackReply)) := Machine.run (step b places)

end Stack

/-- The calls on the matrix of station `k`. -/
def StackOp.of {κ : Type} [DecidableEq κ] (k : κ) : StackOp κ → Option (Op × Clock)
  | .port _ => none
  | .matrix k' i => if k' = k then some i else none

/-- The call leaves every matrix the driver of its station. -/
def StackOp.KeepsDrivers {κ : Type} (d : κ → DriverRef) : StackOp κ → Prop
  | .port _ => True
  | .matrix k i => i.1.KeepsDriver (d k)

/-- What station `k` does in a run. -/
def ownLog {κ : Type} [DecidableEq κ] (k : κ) (log : List (StackOp κ × StackReply)) : List ((Op × Clock) × StationReply) :=
  log.filterMap (Machine.seenEntry (StackOp.of k) StackReply.own)

/-- What goes over the bus in a run. -/
def stackTraffic {κ : Type} (log : List (StackOp κ × StackReply)) : List BusWrite := log.flatMap fun e => e.2.traffic

/-! ### The bus -/

/-- The control registers of the multiplexers, and the expanders behind them, by multiplexer, channel and address. -/
structure Segmented where
  regs : Registers
  device : UInt8 → Fin 8 → UInt8 → MCP23017

namespace Segmented

/-- A write reaches the expanders of its address behind every channel that is on. -/
def take (b : Nat) (n : Segmented) (w : BusWrite) : Segmented where
  regs := latch n.regs w
  device m k a := if isMux m && (n.regs b m).toNat.testBit k then (n.device m k a).take b a w else n.device m k a

def replay (b : Nat) (n : Segmented) (ws : List BusWrite) : Segmented := ws.foldl (take b) n

/-- The expander at a place. -/
def expander (n : Segmented) (p : Place) : MCP23017 := n.device p.mux (low3 p.channel) p.addr

end Segmented

namespace Place

/-- The write is for the address of the place, and goes out while the channel of the place is on. -/
def hears (b : Nat) (p : Place) (regs : Registers) (w : BusWrite) : Bool :=
  w.bus == b && w.addr == p.addr && isMux p.mux && (regs b p.mux).toNat.testBit (low3 p.channel)

/-- The writes that arrive at the place, in order, on a bus whose control registers are `regs` at first. -/
def received (b : Nat) (p : Place) : Registers → List BusWrite → List BusWrite
  | _, [] => []
  | regs, w :: ws => if p.hears b regs w then w :: p.received b (latch regs w) ws else p.received b (latch regs w) ws

end Place

/-- The places are on multiplexers, no expander has the address of a multiplexer, and two expanders of one address are
    behind different channels of one multiplexer. -/
structure Wiring {κ : Type} (places : κ → Place) : Prop where
  mux : ∀ k, isMux (places k).mux = true
  addr : ∀ k, isMux (places k).addr = false
  apart : ∀ j k, j ≠ k → (places j).addr = (places k).addr →
    (places j).mux = (places k).mux ∧ low3 (places j).channel ≠ low3 (places k).channel

end Crosspoint
