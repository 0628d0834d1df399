import Crosspoint.Lib.Traces
import Crosspoint.TCA9548A

/-! Adapters over adapters: the bus below a `TCA9548AInterface` may be another one. Its multiplexer then sits on the segment
    that the other selects, and a write has to find its way through all of them. -/

namespace Crosspoint

/-- A write on an `I2CInterface`. -/
inductive I2CCall
  | writeRegister (addr reg val : UInt8)
  | writeByte (addr data : UInt8)
deriving DecidableEq, Repr

/-- A class that does not override `writeByte` goes through `writeRegister` with a trailing zero. -/
def I2CCall.byDefault : I2CCall → I2CCall
  | .writeByte addr data => .writeRegister addr data 0
  | call => call

def I2CInterface.write (i : I2CInterface) : I2CCall → BusWrite
  | .writeRegister addr reg val => i.writeRegister addr reg val
  | .writeByte addr data => i.writeByte addr data

/-- An `I2CInterface` object: one that drives a bus itself, or `TCA9548AInterface(bus, muxAddr, channel)`. -/
inductive Adapter
  | wire (i : I2CInterface)
  | tca (bus : Adapter) (muxAddr channel : UInt8)
deriving DecidableEq, Repr

namespace Adapter

/-- `_channelMask`, as the constructor computes it. -/
def channelMask (channel : UInt8) : UInt8 := 1 <<< (channel &&& 7)

/-- `begin`, which starts the bus below first. Nothing is written. -/
def begin : Adapter → ChannelCache → ChannelCache
  | wire _, cache => cache
  | tca bus muxAddr _, cache => (bus.begin cache).put (low3 muxAddr) 0xFF

/-- `_selectIfNeeded`, with `write` for what `_bus` does with a write. -/
def selectIfNeeded (write : ChannelCache → I2CCall → ChannelCache × List BusWrite) (muxAddr channel : UInt8)
    (cache : ChannelCache) : ChannelCache × List BusWrite :=
  if cache.get (low3 muxAddr) ≠ channelMask channel then
    let (cache, ws) := write cache (.writeByte muxAddr (channelMask channel))
    (cache.put (low3 muxAddr) (channelMask channel), ws)
  else (cache, [])

/-- `writeRegister`, and `writeByte`, which a `TCA9548AInterface` inherits. -/
def write : Adapter → ChannelCache → I2CCall → ChannelCache × List BusWrite
  | wire i, cache, call => (cache, [i.write call])
  | tca bus muxAddr channel, cache, call =>
    let (cache, selects) := selectIfNeeded bus.write muxAddr channel cache
    let (cache, ws) := bus.write cache call.byDefault
    (cache, selects ++ ws)

/-- The interface at the bottom, which drives the bus. -/
def root : Adapter → I2CInterface
  | wire i => i
  | tca bus _ _ => bus.root

def depth : Adapter → Nat
  | wire _ => 0
  | tca bus _ _ => bus.depth + 1

/-- The channel mask for multiplexer `m`, when the adapter goes through `m`. -/
def mask (m : UInt8) : Adapter → Option UInt8
  | wire _ => none
  | tca bus muxAddr channel => if muxAddr = m then some (channelMask channel) else bus.mask m

/-- The channel itself. -/
def channel (m : UInt8) : Adapter → Option (Fin 8)
  | wire _ => none
  | tca bus muxAddr channel => if muxAddr = m then some (low3 channel) else bus.channel m

end Adapter

/-! ### Programs -/

/-- A call on one of the adapters of a program. -/
inductive AdapterCall
  | begin (o : Adapter)
  | writeRegister (o : Adapter) (devAddr reg val : UInt8)

namespace AdapterCall

def step (cache : ChannelCache) : AdapterCall → ChannelCache × List BusWrite
  | begin o => (o.begin cache, [])
  | writeRegister o devAddr reg val => o.write cache (.writeRegister devAddr reg val)

abbrev run : ChannelCache → List AdapterCall → Option (ChannelCache × List (AdapterCall × List BusWrite)) :=
  Machine.run fun cache call => some (call.step cache)

/-- The adapter that a call writes through. -/
def writer : AdapterCall → Option Adapter
  | begin _ => none
  | writeRegister o _ _ _ => some o

/-- The call turns no multiplexer of `o` away from the channel of `o`. -/
def Agrees (o : Adapter) : AdapterCall → Prop
  | begin o' => ∀ m, o.mask m ≠ none → o'.mask m = none
  | writeRegister o' _ _ _ => ∀ m k k', o.mask m = some k → o'.mask m = some k' → k' = k

end AdapterCall

/-- All that the calls put on the buses, in order. -/
def adapterTraffic (log : List (AdapterCall × List BusWrite)) : List BusWrite := log.flatMap fun e => e.2

/-- The adapter of the latest write through multiplexer `m`. -/
def lastThrough (calls : List AdapterCall) (m : UInt8) : Option Adapter :=
  Traces.lastWhere (fun o => (o.mask m).isSome) (calls.filterMap AdapterCall.writer)

/-! ### The wires -/

/-- A bus, or what is behind a channel of a multiplexer on another segment. -/
inductive Segment
  | root (bus : Nat)
  | behind (s : Segment) (muxAddr : UInt8) (channel : Fin 8)
deriving DecidableEq, Repr

/-- The control registers, by the segment of the multiplexer and its address. -/
abbrev Network := Segment → UInt8 → UInt8

/-- A write on `bus` reaches the segment: the channels on the way are on. -/
def Segment.reached (net : Network) (bus : Nat) : Segment → Bool
  | root b => b == bus
  | behind s muxAddr channel => s.reached net bus && (net s muxAddr).toNat.testBit channel

namespace Segment

def depth : Segment → Nat
  | root _ => 0
  | behind s _ _ => s.depth + 1

def bus : Segment → Nat
  | root bus => bus
  | behind s _ _ => s.bus

/-- The multiplexers on the way, each with the channel towards the segment. -/
def hops : Segment → List (UInt8 × Fin 8)
  | root _ => []
  | behind s muxAddr channel => (muxAddr, channel) :: s.hops

/-- The multiplexers on the way sit where `sites` has the ones of their addresses. -/
def Fits (sites : UInt8 → Segment) : Segment → Prop
  | root _ => True
  | behind s muxAddr _ => s.Fits sites ∧ isMux muxAddr = true ∧ sites muxAddr = s

end Segment

namespace Network

/-- What a bus write does: every multiplexer of its address that it reaches latches the first byte. -/
def take (net : Network) (w : BusWrite) : Network := fun s m =>
  if isMux m = true ∧ m = w.addr ∧ s.reached net w.bus = true then w.bytes.headD (net s m) else net s m

def replay (net : Network) (ws : List BusWrite) : Network := ws.foldl take net

end Network

/-- The segment that the adapter writes to. -/
def Adapter.segment : Adapter → Segment
  | wire i => .root i.bus
  | tca bus muxAddr channel => .behind bus.segment muxAddr (low3 channel)

/-- Every multiplexer that the adapter goes through sits where `sites` has the one of its address. -/
def Adapter.Fits (sites : UInt8 → Segment) : Adapter → Prop
  | wire _ => True
  | tca bus muxAddr _ => bus.Fits sites ∧ isMux muxAddr = true ∧ sites muxAddr = bus.segment

def AdapterCall.Admissible (sites : UInt8 → Segment) : AdapterCall → Prop
  | begin o => o.Fits sites
  | writeRegister o devAddr _ _ => o.Fits sites ∧ isMux devAddr = false

/-- Since a write through `o`, no call has turned a multiplexer of `o` away from its channel. -/
def Adapter.LeftOn (o : Adapter) : List (AdapterCall × List BusWrite) → Prop :=
  Traces.Since (fun _ e => ∃ devAddr reg val, e.1 = .writeRegister o devAddr reg val) fun e => e.1.Agrees o

/-- After the run so far, call `e.1` sets the channels on the way to its segment and no others, with at most one select for
    each and none where `o` left them on, and its device write then reaches that segment. -/
def Delivered (sites : UInt8 → Segment) (net : Network) (pre : List (AdapterCall × List BusWrite))
    (e : AdapterCall × List BusWrite) : Prop :=
  ∀ o devAddr reg val, e.1 = .writeRegister o devAddr reg val →
    ∃ selects, e.2 = selects ++ [o.root.writeRegister devAddr reg val] ∧ selects.length ≤ o.depth ∧
      (o.LeftOn pre → selects = []) ∧
      o.segment.reached (net.replay (adapterTraffic pre ++ selects)) o.root.bus = true ∧
      ∀ m, isMux m = true → net.replay (adapterTraffic pre ++ selects) (sites m) m =
        (o.mask m).getD (net.replay (adapterTraffic pre) (sites m) m)

/-- After the run so far from reset, the device write of call `e.1` reaches exactly the segments of its bus for which every
    multiplexer on the way was last used, this call included, on the channel towards the segment. -/
def Heard (sites : UInt8 → Segment) (pre : List (AdapterCall × List BusWrite)) (e : AdapterCall × List BusWrite) : Prop :=
  ∀ o devAddr reg val, e.1 = .writeRegister o devAddr reg val →
    ∃ selects, e.2 = selects ++ [o.root.writeRegister devAddr reg val] ∧ ∀ s : Segment, s.Fits sites →
      (s.reached (Network.replay (fun _ _ => 0) (adapterTraffic pre ++ selects)) o.root.bus = true ↔
        s.bus = o.root.bus ∧ ∀ hop ∈ s.hops,
          (lastThrough (pre.map Prod.fst ++ [e.1]) hop.1).bind (Adapter.channel hop.1) = some hop.2)

end Crosspoint
