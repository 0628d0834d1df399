/-! The calls that `XPoint` makes on its `XPointDriver`. Drivers answer nothing, so a driver is what it
    does with the sequence of calls that it receives. -/

namespace Crosspoint

/-- The virtual methods of `XPointDriver`, with their arguments. -/
inductive DriverCall
  | begin
  | setNodeHardware (r c : UInt8) (state : Bool)
  | setNodeLevel (r c : UInt8) (level : UInt16)
  | releaseNode (r c : UInt8)
  | commitPhysicalUpdates
deriving DecidableEq, Repr

/-- What a call comes to on a driver that keeps the `setNodeLevel` of the base class, which forwards it. -/
def DriverCall.byDefault : DriverCall → DriverCall
  | .setNodeLevel r c level => .setNodeHardware r c (decide (level > 0))
  | call => call

/-- The output that a call sets through a mapper on such a driver, and the state it sets it to. -/
def DriverCall.sets {α : Type} (map : UInt8 → UInt8 → α) : DriverCall → Option (α × Bool)
  | .setNodeHardware r c state => some (map r c, state)
  | .setNodeLevel r c level => some (map r c, decide (level > 0))
  | _ => none

/-- Which driver object a `XPointDriver *` points to. -/
abbrev DriverRef := Nat

end Crosspoint
