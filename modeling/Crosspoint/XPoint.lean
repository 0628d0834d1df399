import Crosspoint.BitPool
import Crosspoint.Pulses
import Crosspoint.Lib.Loops
import Crosspoint.Lib.Machine

/-! `XPoint`: the matrix manager on its packed bit pool.

Each method takes the state and the clock and gives the new state and a `Reply`, or `none` where the source
would touch the pool outside its bounds. Row and column loops run over `below`, early returns of a search
loop are the searches `anyM`. -/

namespace Crosspoint
open Loops

inductive RelayType
  | nonLatching
  | latchingDualCoil
deriving DecidableEq, Repr

/-- The reading of `millis()` after that many driver calls of the operation in progress. Driver calls take
    time, so an operation that reads the clock before its calls may read another value than one that
    reads it after them. -/
abbrev Clock := Nat → UInt32

/-- What an operation gives back: its result (`none` for `void`) and the calls it made on the driver. -/
structure Reply where
  ret : Option Bool
  calls : List DriverCall
deriving DecidableEq, Repr

structure XPoint where
  rows : UInt8
  cols : UInt8
  type : RelayType
  pdur : UInt16
  drv : Option DriverRef
  pool : BitPool
  pulses : PulseTable
deriving DecidableEq, Repr

namespace XPoint

def setPool (x : XPoint) (pool : BitPool) : XPoint := { x with pool := pool }

def setPulses (x : XPoint) (pulses : PulseTable) : XPoint := { x with pulses := pulses }

/-! ### Construction -/

/-- The bits of the three sections: state, interlock, exclusive. -/
def poolBits (rows cols : UInt8) : UInt32 :=
  rows.toUInt32 * cols.toUInt32 + rows.toUInt32 * rows.toUInt32 + cols.toUInt32

def poolWords (rows cols : UInt8) : UInt16 := BitPool.wordsFor (poolBits rows cols)

/-- `_init`: clears the pool and frees every slot. -/
def init (x : XPoint) : Option XPoint :=
  x.pool.clear.map fun pool => (x.setPool pool).setPulses PulseTable.init

/-- The heap constructor. -/
def heap (rows cols : UInt8) (type : RelayType) (pdur : UInt16) : Option XPoint :=
  init ⟨rows, cols, type, pdur, none, BitPool.heap (poolBits rows cols), PulseTable.init⟩

/-- The pool constructor, on the caller's buffer (`none` for a null pointer). -/
def onPool (rows cols : UInt8) (buffer : Option (Array UInt32)) (type : RelayType) (pdur : UInt16) : Option XPoint :=
  init ⟨rows, cols, type, pdur, none, BitPool.wrap buffer (poolBits rows cols), PulseTable.init⟩

/-- `XPointStatic::WORDS`, a compile-time constant. -/
def staticWords (rows cols : UInt8) : UInt16 := ((poolBits rows cols + 31) / 32).toUInt16

/-- The size of `XPointStatic::_buf`; an array of no words is not allowed. -/
def bufWords (rows cols : UInt8) : UInt16 := if staticWords rows cols > 0 then staticWords rows cols else 1

/-- `XPointStatic<rows, cols>`, whatever its buffer holds at first. -/
def static (rows cols : UInt8) (buf : Vector UInt32 (bufWords rows cols).toNat) (type : RelayType) (pdur : UInt16) :
    Option XPoint :=
  onPool rows cols (some buf.toArray) type pdur

/-! ### Helpers -/

/-- The state bit of node `(r, c)`. -/
def nodeBit (x : XPoint) (r c : UInt8) : UInt32 := r.toUInt32 * x.cols.toUInt32 + c.toUInt32

def ilockOff (x : XPoint) : UInt32 := x.rows.toUInt32 * x.cols.toUInt32

def exclOff (x : XPoint) : UInt32 := x.rows.toUInt32 * x.cols.toUInt32 + x.rows.toUInt32 * x.rows.toUInt32

/-- The interlock bit of rows `a` and `b`. -/
def ilockBit (x : XPoint) (a b : UInt8) : UInt32 := x.ilockOff + a.toUInt32 * x.rows.toUInt32 + b.toUInt32

/-- The exclusive bit of column `c`. -/
def exclBit (x : XPoint) (c : UInt8) : UInt32 := x.exclOff + c.toUInt32

/-- The calls that are made when a driver is attached (`if (_drv)`). -/
def drive (x : XPoint) (calls : List DriverCall) : List DriverCall := if x.drv.isSome then calls else []

/-- Node `(r, col)` is connected or has a pulse in flight. -/
def occupied (x : XPoint) (r col : UInt8) : Option Bool :=
  x.pool.get (x.nodeBit r col) <||> pure (x.pulses.pending r col)

/-- The first rule of `connect` and `setLevel`: another row, interlocked with `row`, occupies `col`. -/
def interlocked (x : XPoint) (row col : UInt8) : Option Bool :=
  (below x.rows).anyM fun r =>
    if r = row then pure false else x.pool.get (x.ilockBit row r) <&&> x.occupied r col

/-- The second rule: `col` is exclusive and another row occupies it. -/
def exclusiveTaken (x : XPoint) (row col : UInt8) : Option Bool :=
  x.pool.get (x.exclBit col) <&&> (below x.rows).anyM fun r => if r = row then pure false else x.occupied r col

/-- The rules that refuse to connect `(row, col)`, in the order of the source. -/
def blocked (x : XPoint) (row col : UInt8) : Option Bool := x.interlocked row col <||> x.exclusiveTaken row col

/-- The end of `connect`, `disconnect` and a latching `setLevel`: find a slot (latching only) or refuse,
    then write the state bit, drive the node, and start its pulse. -/
def switchNode (x : XPoint) (millis : Clock) (row col : UInt8) (on : Bool) : Option (XPoint × Reply) :=
  let calls := x.drive [.setNodeHardware row col on, .commitPhysicalUpdates]
  match x.type with
  | .latchingDualCoil =>
    match x.pulses.alloc row col with
    | none => some (x, ⟨some false, []⟩)
    | some slot => do
      let pool ← x.pool.set (x.nodeBit row col) on
      return ((x.setPool pool).setPulses (x.pulses.put slot ⟨row, col, millis calls.length, true⟩), ⟨some true, calls⟩)
  | .nonLatching => do
    let pool ← x.pool.set (x.nodeBit row col) on
    return (x.setPool pool, ⟨some true, calls⟩)

/-! ### Operations -/

def setDriver (x : XPoint) (drv : Option DriverRef) : XPoint × Reply := ({ x with drv := drv }, ⟨none, []⟩)

def begin (x : XPoint) : XPoint × Reply := (x, ⟨none, x.drive [.begin]⟩)

def connect (x : XPoint) (millis : Clock) (row col : UInt8) : Option (XPoint × Reply) := do
  if !x.pool.valid || row ≥ x.rows || col ≥ x.cols then return (x, ⟨some false, []⟩)
  if ← x.blocked row col then return (x, ⟨some false, []⟩)
  if ← x.pool.get (x.nodeBit row col) then return (x, ⟨some true, []⟩)
  x.switchNode millis row col true

def disconnect (x : XPoint) (millis : Clock) (row col : UInt8) : Option (XPoint × Reply) := do
  if !x.pool.valid || row ≥ x.rows || col ≥ x.cols then return (x, ⟨some false, []⟩)
  if !(← x.pool.get (x.nodeBit row col)) then return (x, ⟨some true, []⟩)
  x.switchNode millis row col false

def setLevel (x : XPoint) (millis : Clock) (row col : UInt8) (level : UInt16) : Option (XPoint × Reply) := do
  if !x.pool.valid || row ≥ x.rows || col ≥ x.cols then return (x, ⟨some false, []⟩)
  let on : Bool := level > 0
  if ← (pure on <&&> x.blocked row col) then return (x, ⟨some false, []⟩)
  match x.type with
  | .latchingDualCoil =>
    if (← x.pool.get (x.nodeBit row col)) == on then return (x, ⟨some true, []⟩)
    x.switchNode millis row col on
  | .nonLatching =>
    -- No idempotent return here: the level may differ although the bit does not.
    let pool ← x.pool.set (x.nodeBit row col) on
    return (x.setPool pool, ⟨some true, x.drive [.setNodeLevel row col level, .commitPhysicalUpdates]⟩)

/-- One turn of the row and column loops of `clearAll`. -/
def clearNode (now : UInt32) (r c : UInt8) (s : XPoint × List DriverCall) : Option (XPoint × List DriverCall) := do
  let x := s.1
  if !(← x.pool.get (x.nodeBit r c)) then return s
  let pool ← x.pool.set (x.nodeBit r c) false
  let calls := s.2 ++ x.drive [.setNodeHardware r c false]
  match x.type with
  | .latchingDualCoil =>
    match x.pulses.reclaim r c with
    | (pulses, some slot) => return ((x.setPool pool).setPulses (pulses.put slot ⟨r, c, now, true⟩), calls)
    | (pulses, none) => return ((x.setPool pool).setPulses pulses, s.2)
  | .nonLatching => return (x.setPool pool, calls)

def clearAll (x : XPoint) (millis : Clock) : Option (XPoint × Reply) := do
  if !x.pool.valid then return (x, ⟨none, []⟩)
  let now := if x.type = .latchingDualCoil then millis 0 else 0
  let s ← (below x.rows).foldlM (fun s r => (below x.cols).foldlM (fun s c => clearNode now r c s) s) (x, [])
  return (s.1, ⟨none, s.2 ++ x.drive [.commitPhysicalUpdates]⟩)

def lockRows (x : XPoint) (rowA rowB : UInt8) : Option (XPoint × Reply) := do
  if !x.pool.valid || rowA ≥ x.rows || rowB ≥ x.rows then return (x, ⟨none, []⟩)
  let pool ← x.pool.set (x.ilockBit rowA rowB) true
  let pool ← pool.set (x.ilockBit rowB rowA) true
  return (x.setPool pool, ⟨none, []⟩)

def exclusiveInput (x : XPoint) (col : UInt8) : Option (XPoint × Reply) := do
  if !x.pool.valid || col ≥ x.cols then return (x, ⟨none, []⟩)
  let pool ← x.pool.set (x.exclBit col) true
  return (x.setPool pool, ⟨none, []⟩)

def update (x : XPoint) (millis : Clock) : XPoint × Reply :=
  if x.type ≠ .latchingDualCoil then (x, ⟨none, []⟩)
  else
    let (pulses, released) := x.pulses.expire (millis 0) x.pdur
    let commit := if released.isEmpty then [] else [.commitPhysicalUpdates]
    (x.setPulses pulses, ⟨none, x.drive (released.map (fun n => .releaseNode n.1 n.2) ++ commit)⟩)

end XPoint

/-! ### The public interface as one machine -/

/-- A call of a public method. -/
inductive Op
  | setDriver (drv : Option DriverRef)
  | begin
  | connect (row col : UInt8)
  | disconnect (row col : UInt8)
  | setLevel (row col : UInt8) (level : UInt16)
  | clearAll
  | lockRows (rowA rowB : UInt8)
  | exclusiveInput (col : UInt8)
  | update
deriving DecidableEq, Repr

/-- One call, with the clock as it runs during the call. -/
def XPoint.step (x : XPoint) (i : Op × Clock) : Option (XPoint × Reply) :=
  match i.1 with
  | .setDriver drv => some (x.setDriver drv)
  | .begin => some x.begin
  | .connect row col => x.connect i.2 row col
  | .disconnect row col => x.disconnect i.2 row col
  | .setLevel row col level => x.setLevel i.2 row col level
  | .clearAll => x.clearAll i.2
  | .lockRows rowA rowB => x.lockRows rowA rowB
  | .exclusiveInput col => x.exclusiveInput col
  | .update => some (x.update i.2)

/-- A matrix as either constructor leaves it. The caller's buffer has at least the words that `poolWords`
    asks for, with any content. -/
inductive XPoint.Built (rows cols : UInt8) (type : RelayType) (pdur : UInt16) (x : XPoint) : Prop
  | heap (h : XPoint.heap rows cols type pdur = some x)
  | onPool (buffer : Array UInt32) (room : (XPoint.poolWords rows cols).toNat ≤ buffer.size)
      (h : XPoint.onPool rows cols (some buffer) type pdur = some x)

/-- A matrix with driver `d` attached right after construction. -/
def XPoint.Attached (rows cols : UInt8) (type : RelayType) (pdur : UInt16) (d : DriverRef) (x : XPoint) : Prop :=
  ∃ y, XPoint.Built rows cols type pdur y ∧ x = (y.setDriver (some d)).1

/-- The operation leaves driver `d` attached. -/
def Op.KeepsDriver (d : DriverRef) : Op → Prop
  | .setDriver drv => drv = some d
  | _ => True

/-- The operation sets up the rules of the matrix. -/
def Op.Configures : Op → Prop
  | .lockRows _ _ | .exclusiveInput _ => True
  | _ => False

/-- The operation works the matrix under the rules as they are. -/
def Op.Operates : Op → Prop
  | .connect _ _ | .disconnect _ _ | .setLevel _ _ _ | .clearAll | .update => True
  | _ => False

/-- The operation reads or writes the tables. -/
def Op.Addresses : Op → Prop
  | .connect _ _ | .disconnect _ _ | .setLevel _ _ _ | .clearAll | .lockRows _ _ | .exclusiveInput _ => True
  | _ => False

/-- The calls that the driver received in a run, in order. -/
def driverCalls (log : List ((Op × Clock) × Reply)) : List DriverCall := log.flatMap fun e => e.2.calls

abbrev XPoint.run : XPoint → List (Op × Clock) → Option (XPoint × List ((Op × Clock) × Reply)) :=
  Machine.run XPoint.step

end Crosspoint
