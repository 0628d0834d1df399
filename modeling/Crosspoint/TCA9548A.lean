import Crosspoint.I2C
import Crosspoint.Lib.Loops
import Crosspoint.Lib.Machine

/-! `TCA9548AInterface`: the decorator that selects a channel of a multiplexer before it forwards a write.
    All objects of a program share one cache of the selected channels. -/

namespace Crosspoint

/-- The low three bits, `x & 0x7u`. -/
def low3 (x : UInt8) : Fin 8 := ⟨(x &&& 7).toNat, by
  rw [UInt8.toNat_and]
  exact Nat.lt_of_le_of_lt Nat.and_le_right (by decide)⟩

/-- The function-local static array behind `_lastSel`: the last channel-select byte written to each
    multiplexer, `0xFF` when it is not known. Slot 0 is address `0x70`, slot 7 is `0x77`. -/
abbrev ChannelCache := Vector UInt8 8

def ChannelCache.init : ChannelCache := Vector.replicate 8 0xFF

structure TCA9548AInterface where
  bus : I2CInterface
  muxAddr : UInt8
  channelMask : UInt8
deriving DecidableEq, Repr

namespace TCA9548AInterface

def new (bus : I2CInterface) (muxAddr channel : UInt8) : TCA9548AInterface where
  bus := bus
  muxAddr := muxAddr
  channelMask := 1 <<< (channel &&& 7)

/-- `_selectIfNeeded`, with the writes that it puts on the bus. -/
def selectIfNeeded (o : TCA9548AInterface) (cache : ChannelCache) : ChannelCache × List BusWrite :=
  if cache.get (low3 o.muxAddr) ≠ o.channelMask then
    (cache.put (low3 o.muxAddr) o.channelMask, [o.bus.writeByte o.muxAddr o.channelMask])
  else (cache, [])

/-- `begin`. Starting the bus below writes nothing. -/
def begin (o : TCA9548AInterface) (cache : ChannelCache) : ChannelCache × List BusWrite :=
  (cache.put (low3 o.muxAddr) 0xFF, [])

def writeRegister (o : TCA9548AInterface) (cache : ChannelCache) (devAddr reg val : UInt8) : ChannelCache × List BusWrite :=
  let (cache, ws) := o.selectIfNeeded cache
  (cache, ws ++ [o.bus.writeRegister devAddr reg val])

/-- The object was constructed over bus `b` with the address of a multiplexer. -/
def OnBus (b : I2CInterface) (o : TCA9548AInterface) : Prop :=
  isMux o.muxAddr = true ∧ ∃ channel, o = .new b o.muxAddr channel

end TCA9548AInterface

/-- A call on one of the objects of a program. -/
inductive MuxCall
  | begin (o : TCA9548AInterface)
  | writeRegister (o : TCA9548AInterface) (devAddr reg val : UInt8)
deriving DecidableEq, Repr

namespace MuxCall

def step (cache : ChannelCache) : MuxCall → ChannelCache × List BusWrite
  | .begin o => o.begin cache
  | .writeRegister o devAddr reg val => o.writeRegister cache devAddr reg val

/-- The calls in order, each with the bus writes it makes. -/
abbrev run : ChannelCache → List MuxCall → Option (ChannelCache × List (MuxCall × List BusWrite)) :=
  Machine.run fun cache call => some (step cache call)

/-- What the cache is to make no difference to: an implementation that selects before every write. -/
def plain : MuxCall → List BusWrite
  | .begin _ => []
  | .writeRegister o devAddr reg val => [o.bus.writeByte o.muxAddr o.channelMask, o.bus.writeRegister devAddr reg val]

/-- The call is on an object over bus `b`, and it addresses no multiplexer as a device. -/
def Admissible (b : I2CInterface) : MuxCall → Prop
  | .begin o => o.OnBus b
  | .writeRegister o devAddr _ _ => o.OnBus b ∧ isMux devAddr = false

end MuxCall

/-- All bus writes of a run. -/
def traffic (log : List (MuxCall × List BusWrite)) : List BusWrite := log.flatMap fun e => e.2

/-- A bus write, or a `begin()`, as the multiplexer it concerns sees it. -/
inductive MuxEvent
  | begun (o : TCA9548AInterface)
  | wrote (w : BusWrite)
deriving DecidableEq, Repr

def MuxEvent.concerns (muxAddr : UInt8) : MuxEvent → Bool
  | .begun o => o.muxAddr == muxAddr
  | .wrote w => w.addr == muxAddr

def MuxCall.events (call : MuxCall) (ws : List BusWrite) : List MuxEvent :=
  match call with
  | .begin o => .begun o :: ws.map .wrote
  | .writeRegister _ _ _ _ => ws.map .wrote

/-- The bus writes of a run and the `begin()` calls between them. -/
def muxEvents (log : List (MuxCall × List BusWrite)) : List MuxEvent := log.flatMap fun e => e.1.events e.2

end Crosspoint
