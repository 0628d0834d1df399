import Mathlib.Data.List.Basic

/-! I2C buses and the TCA9548A multiplexers on them. A bus write is a transaction of an address and data
    bytes; a multiplexer at one of the addresses `0x70` to `0x77` latches only the first byte of a write to it
    as its control register, which is what `writeByte` relies on, and any other address is a device's. -/

namespace Crosspoint

/-- A write transaction on a bus. -/
structure BusWrite where
  bus : Nat
  addr : UInt8
  bytes : List UInt8
deriving DecidableEq, Repr

/-- An `I2CInterface` that drives a bus itself: which bus, and whether its class overrides `writeByte` to send
    exactly one byte, as `WireI2C` does. -/
structure I2CInterface where
  bus : Nat
  singleByte : Bool
deriving DecidableEq, Repr

namespace I2CInterface

def writeRegister (i : I2CInterface) (addr reg val : UInt8) : BusWrite := ⟨i.bus, addr, [reg, val]⟩

/-- The default goes through `writeRegister` with a trailing zero. -/
def writeByte (i : I2CInterface) (addr data : UInt8) : BusWrite :=
  if i.singleByte then ⟨i.bus, addr, [data]⟩ else i.writeRegister addr data 0

end I2CInterface

/-- The address of a multiplexer. -/
def isMux (addr : UInt8) : Bool := 0x70 ≤ addr && addr ≤ 0x77

/-- The control registers, by bus and multiplexer address. -/
abbrev Registers := Nat → UInt8 → UInt8

def Registers.set (regs : Registers) (bus : Nat) (addr val : UInt8) : Registers :=
  fun b a => if b = bus ∧ a = addr then val else regs b a

/-- What a bus write does to the control registers. -/
def latch (regs : Registers) (w : BusWrite) : Registers :=
  match isMux w.addr, w.bytes with
  | true, val :: _ => regs.set w.bus w.addr val
  | _, _ => regs

/-- The control registers after a sequence of bus writes. -/
def registers (regs : Registers) (ws : List BusWrite) : Registers := ws.foldl latch regs

/-- The device writes in order, each with the control registers at that moment. -/
def deliveries : Registers → List BusWrite → List (BusWrite × Registers)
  | _, [] => []
  | regs, w :: ws => if isMux w.addr then deliveries (latch regs w) ws else (w, regs) :: deliveries (latch regs w) ws

end Crosspoint
