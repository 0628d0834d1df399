import Crosspoint.Driver
import Crosspoint.Lib.Buffers
import Crosspoint.Lib.Loops
import Crosspoint.Lib.Machine

/-! `TLC59711Driver`: a chain of PWM chips behind one SPI port. The driver keeps a value for every channel, and a
    commit assembles the packet that is shifted through the chain. -/

namespace Crosspoint
open Buffers Loops

/-- `CTRL_WORD`, full-scale brightness with OUTTMG, TMGRST and DSPRPT set. -/
def CTRL_WORD : Vector UInt8 4 := #v[0x96, 0xDF, 0xFF, 0xFF]

def BYTES_PER_CHIP : UInt16 := 28

namespace TLC59711Driver

/-- `_nCh`, the number of channels. -/
def nCh (nChips : UInt8) : UInt16 := nChips.toUInt16 * 12

/-- `_pktSz`, the size of the packet in bytes. -/
def pktSz (nChips : UInt8) : UInt16 := nChips.toUInt16 * BYTES_PER_CHIP

end TLC59711Driver

open TLC59711Driver in
/-- The driver for `nChips` chips, with its two buffers. -/
structure TLC59711Driver (nChips : UInt8) where
  map : UInt8 → UInt8 → UInt16
  pwms : Vector UInt16 (nCh nChips).toNat
  pkt : Vector UInt8 (pktSz nChips).toNat

namespace TLC59711Driver
variable {nChips : UInt8}

def new (nChips : UInt8) (map : UInt8 → UInt8 → UInt16) : TLC59711Driver nChips :=
  ⟨map, Vector.replicate _ 0, Vector.replicate _ 0⟩

/-- `begin` starts the SPI port, nothing else. -/
def begin (d : TLC59711Driver nChips) : TLC59711Driver nChips := d

/-- Channels out of range are ignored. -/
def setPWM (d : TLC59711Driver nChips) (ch val : UInt16) : TLC59711Driver nChips :=
  if h : ch < nCh nChips then { d with pwms := d.pwms.set ch.toNat val (UInt16.lt_iff_toNat_lt.mp h) } else d

def setNodeHardware (d : TLC59711Driver nChips) (r c : UInt8) (state : Bool) : TLC59711Driver nChips :=
  d.setPWM (d.map r c) (if state then 0xFFFF else 0x0000)

def setNodeLevel (d : TLC59711Driver nChips) (r c : UInt8) (level : UInt16) : TLC59711Driver nChips :=
  d.setPWM (d.map r c) level

/-- The value of channel `idx`, or 0 out of range. -/
def pwm (d : TLC59711Driver nChips) (idx : UInt16) : UInt16 :=
  if h : idx < nCh nChips then
    have := UInt16.lt_iff_toNat_lt.mp h
    d.pwms[idx.toNat]
  else 0

/-- One turn of the channel loop: the two bytes of a channel of the chip whose channels start at `base`. -/
def putChannel (d : TLC59711Driver nChips) (off base : UInt16) (pkt : Vector UInt8 (pktSz nChips).toNat) (i : UInt8) :
    Option (Vector UInt8 (pktSz nChips).toNat) := do
  let v := d.pwm (base + (11 - i.toUInt16))
  let pkt ← store pkt (off.toNat + 4 + i.toNat * 2) (v >>> 8).toUInt8
  store pkt (off.toNat + 4 + i.toNat * 2 + 1) (v &&& 0xFF).toUInt8

/-- One turn of the chip loop, at offset `s.1` of the packet. -/
def putChip (d : TLC59711Driver nChips) (s : UInt16 × Vector UInt8 (pktSz nChips).toNat) (chip : Int8) :
    Option (UInt16 × Vector UInt8 (pktSz nChips).toNat) := do
  let (off, pkt) := s
  let pkt ← store pkt (off.toNat + 0) CTRL_WORD[0]
  let pkt ← store pkt (off.toNat + 1) CTRL_WORD[1]
  let pkt ← store pkt (off.toNat + 2) CTRL_WORD[2]
  let pkt ← store pkt (off.toNat + 3) CTRL_WORD[3]
  let pkt ← (below 12).foldlM (putChannel d off (chip.toUInt8.toUInt16 * 12)) pkt
  return (off + BYTES_PER_CHIP, pkt)

/-- `commitPhysicalUpdates`. The chip counter is an `int8_t` that starts from the count less one. -/
def commitPhysicalUpdates (d : TLC59711Driver nChips) : Option (TLC59711Driver nChips) := do
  let s ← (downFrom (nChips.toInt8 - 1)).foldlM d.putChip (0, d.pkt)
  return { d with pkt := s.2 }

/-- The driver as a `XPointDriver`. It does not override `releaseNode`, which does nothing. -/
def handle (d : TLC59711Driver nChips) : DriverCall → Option (TLC59711Driver nChips)
  | .begin => some d.begin
  | .setNodeHardware r c state => some (d.setNodeHardware r c state)
  | .setNodeLevel r c level => some (d.setNodeLevel r c level)
  | .releaseNode _ _ => some d
  | .commitPhysicalUpdates => d.commitPhysicalUpdates

/-- A call of a public method. -/
inductive Call
  | driver (call : DriverCall)
  | setPWM (ch val : UInt16)
deriving DecidableEq, Repr

def step (d : TLC59711Driver nChips) : Call → Option (TLC59711Driver nChips × Unit)
  | .driver call => (d.handle call).map fun d => (d, ())
  | .setPWM ch val => some (d.setPWM ch val, ())

abbrev run : TLC59711Driver nChips → List Call → Option (TLC59711Driver nChips × List (Call × Unit)) :=
  Machine.run step

end TLC59711Driver

end Crosspoint
