import Crosspoint.Driver
import Crosspoint.Lib.Traces

/-! What the hardware behind a driver makes of the calls, one node at a time: whether a coil is energised,
    where the contact of a latching relay stands, and what a buffered output shows. -/

namespace Crosspoint

namespace DriverCall

/-- The call is a `setNodeHardware` or a `releaseNode` of node `(r, c)`. -/
def names (r c : UInt8) : DriverCall → Bool
  | .setNodeHardware r' c' _ => r' == r && c' == c
  | .releaseNode r' c' => r' == r && c' == c
  | _ => false

def energises : DriverCall → Bool
  | .setNodeHardware _ _ _ => true
  | _ => false

end DriverCall

/-- A coil of node `(r, c)` is energised: the latest call that names the node is a `setNodeHardware`. -/
def energised (calls : List DriverCall) (r c : UInt8) : Bool :=
  (Traces.lastWhere (DriverCall.names r c) calls).any DriverCall.energises

/-- A contact of a latching relay. The SET coil closes it at once; the RESET coil opens it by the time it is
    released. -/
inductive Contact
  | opened
  | opening
  | closed
deriving DecidableEq, Repr

def Contact.move (r c : UInt8) (k : Contact) (call : DriverCall) : Contact :=
  if call.names r c then
    match call, k with
    | .setNodeHardware _ _ true, _ => .closed
    | .setNodeHardware _ _ false, _ => .opening
    | .releaseNode _ _, .opening => .opened
    | _, k => k
  else k

namespace Contact
variable {r c r' c' : UInt8} {k : Contact} {call : DriverCall} {on : Bool}

theorem move_other (h : call.names r c = false) : move r c k call = k := by
  unfold move
  rw [h]
  rfl

theorem move_set : move r c k (.setNodeHardware r c on) = if on then .closed else .opening := by
  cases on <;> simp [move, DriverCall.names]

theorem move_release : move r c k (.releaseNode r c) = if k = .opening then .opened else k := by
  cases k <;> simp [move, DriverCall.names]

end Contact

theorem DriverCall.names_set {r c r' c' : UInt8} {on : Bool} (h : ¬(r = r' ∧ c = c')) :
    names r c (.setNodeHardware r' c' on) = false := by
  simpa [names, eq_comm (a := r'), eq_comm (a := c')] using h

theorem DriverCall.names_release {r c r' c' : UInt8} (h : ¬(r = r' ∧ c = c')) : names r c (.releaseNode r' c') = false := by
  simpa [names, eq_comm (a := r'), eq_comm (a := c')] using h

/-- Where the contact of node `(r, c)` stands after the calls, open at first. -/
def contact (calls : List DriverCall) (r c : UInt8) : Contact := calls.foldl (Contact.move r c) .opened

/-- An output of a buffered driver: the staged value, and the physical one since the last commit. -/
structure Output where
  staged : Bool
  physical : Bool
deriving DecidableEq, Repr

def Output.take (r c : UInt8) (o : Output) : DriverCall → Output
  | .setNodeHardware r' c' state => if r' = r ∧ c' = c then ⟨state, o.physical⟩ else o
  | .setNodeLevel r' c' level => if r' = r ∧ c' = c then ⟨decide (level > 0), o.physical⟩ else o
  | .commitPhysicalUpdates => ⟨o.staged, o.staged⟩
  | _ => o

theorem Output.take_set {r c r' c' : UInt8} {o : Output} {on : Bool} :
    take r c o (.setNodeHardware r' c' on) = if r' = r ∧ c' = c then ⟨on, o.physical⟩ else o := rfl

theorem Output.take_level {r c r' c' : UInt8} {o : Output} {level : UInt16} :
    take r c o (.setNodeLevel r' c' level) = if r' = r ∧ c' = c then ⟨decide (level > 0), o.physical⟩ else o := rfl

/-- The output of node `(r, c)` after the calls, off at first. -/
def output (calls : List DriverCall) (r c : UInt8) : Output := calls.foldl (Output.take r c) ⟨false, false⟩

end Crosspoint
