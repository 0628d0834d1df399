import Crosspoint.Tables
import Crosspoint.Theorems.Slots

/-! The elementary things an operation does, one after the other: an operation of the table machine is a
    sequence of events, and the driver calls it makes are theirs. An event changes at most one node and one slot,
    so an invariant is checked against the events, not against the operations. -/

namespace Crosspoint
open PulseTable

inductive Event
  | switch (r c : UInt8) (on : Bool)
  | level (r c : UInt8) (level : UInt16)
  /-- A latching node changes and takes a free slot. -/
  | pulse (r c : UInt8) (on : Bool)
  /-- `clearAll` resets a node whose pulse is in flight, in the slot of that pulse. -/
  | repulse (r c : UInt8)
  /-- `clearAll` passes a connected node over: its bit is cleared, but no slot is left to drive it. -/
  | skip (r c : UInt8)
  | release (r c : UInt8)
  | commit
  | lock (rowA rowB : UInt8)
  | exclude (col : UInt8)
  | attach (drv : Option DriverRef)
  | begin
deriving DecidableEq, Repr

/-- The calls that an attached driver receives at an event. -/
def Event.calls : Event → List DriverCall
  | .switch r c on => [.setNodeHardware r c on]
  | .level r c l => [.setNodeLevel r c l]
  | .pulse r c on => [.setNodeHardware r c on]
  | .repulse r c => [.setNodeHardware r c false]
  | .release r c => [.releaseNode r c]
  | .commit => [.commitPhysicalUpdates]
  | .begin => [.begin]
  | .skip _ _ | .lock _ _ | .exclude _ | .attach _ => []

/-- The event may be part of the operation. -/
def Op.Emits : Op → Event → Prop
  | .setDriver drv, e => e = .attach drv
  | .begin, e => e = .begin
  | .connect row col, e => e = .switch row col true ∨ e = .pulse row col true ∨ e = .commit
  | .disconnect row col, e => e = .switch row col false ∨ e = .pulse row col false ∨ e = .commit
  | .setLevel row col level, e => e = .level row col level ∨ e = .pulse row col (decide (level > 0)) ∨ e = .commit
  | .clearAll, e =>
    (∃ r c, e = .switch r c false ∨ e = .pulse r c false ∨ e = .repulse r c ∨ e = .skip r c) ∨ e = .commit
  | .lockRows rowA rowB, e => e = .lock rowA rowB
  | .exclusiveInput col, e => e = .exclude col
  | .update, e => (∃ r c, e = .release r c) ∨ e = .commit

namespace TableXPoint

/-- Node `(r, c)` may be switched: on if the rules let it through, off if it is on. -/
structure Allows (a : TableXPoint) (r c : UInt8) (on : Bool) : Prop where
  row : r < a.rows
  col : c < a.cols
  on : on = true → a.blocked r c = false

/-- `Does a e b`: event `e` takes the tables `a` to `b`. -/
inductive Does : TableXPoint → Event → TableXPoint → Prop
  | switch {a : TableXPoint} {r c : UInt8} {on : Bool} (ht : a.type = .nonLatching) (h : a.Allows r c on) :
    Does a (.switch r c on) (a.setConn r c on)
  | level {a : TableXPoint} {r c : UInt8} {level : UInt16} (ht : a.type = .nonLatching)
    (h : a.Allows r c (decide (level > 0))) : Does a (.level r c level) (a.setConn r c (decide (level > 0)))
  | pulse {a : TableXPoint} {r c : UInt8} {on : Bool} {i : Fin MAX_PULSES} {t : UInt32}
    (ht : a.type = .latchingDualCoil) (h : a.Allows r c on) (hoff : on = false → a.conn r c = true)
    (hp : a.pulses.pending r c = false) (hi : (a.pulses.get i).on = false) :
    Does a (.pulse r c on) ((a.setConn r c on).setPulses (a.pulses.put i ⟨r, c, t, true⟩))
  | repulse {a : TableXPoint} {r c : UInt8} {i : Fin MAX_PULSES} {t : UInt32} (ht : a.type = .latchingDualCoil)
    (h : a.Allows r c false) (hc : a.conn r c = true) (hi : (a.pulses.get i).names r c = true) :
    Does a (.repulse r c) ((a.setConn r c false).setPulses (a.pulses.put i ⟨r, c, t, true⟩))
  | skip {a : TableXPoint} {r c : UInt8} (ht : a.type = .latchingDualCoil) (h : a.Allows r c false)
    (hc : a.conn r c = true) (hp : a.pulses.pending r c = false)
    (hfull : ∀ i : Fin MAX_PULSES, (a.pulses.get i).on = true) :
    Does a (.skip r c) (a.setConn r c false)
  | release {a : TableXPoint} {i : Fin MAX_PULSES} (ht : a.type = .latchingDualCoil) (hi : (a.pulses.get i).on = true) :
    Does a (.release (a.pulses.get i).r (a.pulses.get i).c) (a.setPulses (a.pulses.freed i))
  | commit {a : TableXPoint} : Does a .commit a
  | lock {a : TableXPoint} {rowA rowB : UInt8} (hA : rowA < a.rows) (hB : rowB < a.rows) :
    Does a (.lock rowA rowB) ((a.setLock rowA rowB).setLock rowB rowA)
  | exclude {a : TableXPoint} {col : UInt8} (h : col < a.cols) : Does a (.exclude col) (a.setExcl col)
  | attach {a : TableXPoint} {drv : Option DriverRef} : Does a (.attach drv) { a with drv := drv }
  | begin {a : TableXPoint} : Does a .begin a

end TableXPoint

end Crosspoint
