import Crosspoint.XPoint

/-! What the matrix manager is meant to be: the same program on three independent tables instead of one
    packed bit array. Reads and writes of a table cannot fail and cannot reach another table. -/

namespace Crosspoint
open Loops

/-- The matrix manager with a connection table, a lock table and an exclusive table. `valid` says whether
    there are tables at all (the pool pointer is not null). -/
structure TableXPoint where
  rows : UInt8
  cols : UInt8
  type : RelayType
  pdur : UInt16
  drv : Option DriverRef
  valid : Bool
  conn : UInt8 → UInt8 → Bool
  lock : UInt8 → UInt8 → Bool
  excl : UInt8 → Bool
  pulses : PulseTable

/-- A table with the entry at `(i, j)` set to `v`. -/
def setEntry (t : UInt8 → UInt8 → Bool) (i j : UInt8) (v : Bool) : UInt8 → UInt8 → Bool :=
  fun i' j' => if i' = i ∧ j' = j then v else t i' j'

@[simp] theorem setEntry_self (t : UInt8 → UInt8 → Bool) (i j : UInt8) (v : Bool) : setEntry t i j v i j = v := by
  simp [setEntry]

theorem setEntry_ne {t : UInt8 → UInt8 → Bool} {i j i' j' : UInt8} {v : Bool} (h : ¬(i' = i ∧ j' = j)) :
    setEntry t i j v i' j' = t i' j' := by
  simp [setEntry, h]

theorem setEntry_same {t : UInt8 → UInt8 → Bool} {i j : UInt8} {v : Bool} (h : t i j = v) : setEntry t i j v = t := by
  funext i' j'
  rw [setEntry]
  split
  · rename_i heq
    rw [heq.1, heq.2, h]
  · rfl

/-! ### The guards of the operations -/

theorem inside_col {valid : Bool} {j m : UInt8} (h : ¬(!valid || decide (j ≥ m)) = true) : valid = true ∧ j < m := by
  simp only [Bool.or_eq_true, Bool.not_eq_true', decide_eq_true_eq, not_or, Bool.not_eq_false, ge_iff_le,
    UInt8.not_le] at h
  exact h

theorem inside {valid : Bool} {i n j m : UInt8} (h : ¬(!valid || decide (i ≥ n) || decide (j ≥ m)) = true) :
    valid = true ∧ i < n ∧ j < m := by
  rw [Bool.or_assoc] at h
  simp only [Bool.or_eq_true, Bool.not_eq_true', decide_eq_true_eq, not_or, Bool.not_eq_false, ge_iff_le,
    UInt8.not_le] at h
  exact h

/-- A guard that an empty matrix never passes does not tell whether there is a pool. -/
theorem guard_congr {valid valid' p : Bool} {rows cols : UInt8} (hv : valid = valid' ∨ rows = 0 ∧ cols = 0)
    (hp : rows = 0 ∧ cols = 0 → p = true) : (!valid || p) = (!valid' || p) := by
  rcases hv with rfl | hzero
  · rfl
  · rw [hp hzero, Bool.or_true, Bool.or_true]

namespace TableXPoint

/-- All tables false, every slot free, no driver. -/
def init (rows cols : UInt8) (type : RelayType) (pdur : UInt16) (valid : Bool) : TableXPoint where
  rows := rows
  cols := cols
  type := type
  pdur := pdur
  drv := none
  valid := valid
  conn := fun _ _ => false
  lock := fun _ _ => false
  excl := fun _ => false
  pulses := PulseTable.init

/-- Connect or disconnect node `(r, c)` in the connection table. -/
def setConn (a : TableXPoint) (r c : UInt8) (v : Bool) : TableXPoint := { a with conn := setEntry a.conn r c v }

/-- Lock row `r` against row `s`, in one direction. -/
def setLock (a : TableXPoint) (r s : UInt8) : TableXPoint := { a with lock := setEntry a.lock r s true }

def setExcl (a : TableXPoint) (col : UInt8) : TableXPoint := { a with excl := fun c => if c = col then true else a.excl c }

def setPulses (a : TableXPoint) (pulses : PulseTable) : TableXPoint := { a with pulses := pulses }

def drive (a : TableXPoint) (calls : List DriverCall) : List DriverCall := if a.drv.isSome then calls else []

def occupied (a : TableXPoint) (r col : UInt8) : Bool := a.conn r col || a.pulses.pending r col

def interlocked (a : TableXPoint) (row col : UInt8) : Bool :=
  (below a.rows).any fun r => if r = row then false else a.lock row r && a.occupied r col

def exclusiveTaken (a : TableXPoint) (row col : UInt8) : Bool :=
  a.excl col && (below a.rows).any fun r => if r = row then false else a.occupied r col

def blocked (a : TableXPoint) (row col : UInt8) : Bool := a.interlocked row col || a.exclusiveTaken row col

def switchNode (a : TableXPoint) (millis : Clock) (row col : UInt8) (on : Bool) : TableXPoint × Reply :=
  let calls := a.drive [.setNodeHardware row col on, .commitPhysicalUpdates]
  match a.type with
  | .latchingDualCoil =>
    match a.pulses.alloc row col with
    | none => (a, ⟨some false, []⟩)
    | some slot =>
      ((a.setConn row col on).setPulses (a.pulses.put slot ⟨row, col, millis calls.length, true⟩), ⟨some true, calls⟩)
  | .nonLatching => (a.setConn row col on, ⟨some true, calls⟩)

def setDriver (a : TableXPoint) (drv : Option DriverRef) : TableXPoint × Reply := ({ a with drv := drv }, ⟨none, []⟩)

def begin (a : TableXPoint) : TableXPoint × Reply := (a, ⟨none, a.drive [.begin]⟩)

def connect (a : TableXPoint) (millis : Clock) (row col : UInt8) : TableXPoint × Reply :=
  if !a.valid || row ≥ a.rows || col ≥ a.cols then (a, ⟨some false, []⟩)
  else if a.blocked row col then (a, ⟨some false, []⟩)
  else if a.conn row col then (a, ⟨some true, []⟩)
  else a.switchNode millis row col true

def disconnect (a : TableXPoint) (millis : Clock) (row col : UInt8) : TableXPoint × Reply :=
  if !a.valid || row ≥ a.rows || col ≥ a.cols then (a, ⟨some false, []⟩)
  else if !a.conn row col then (a, ⟨some true, []⟩)
  else a.switchNode millis row col false

def setLevel (a : TableXPoint) (millis : Clock) (row col : UInt8) (level : UInt16) : TableXPoint × Reply :=
  let on : Bool := level > 0
  if !a.valid || row ≥ a.rows || col ≥ a.cols then (a, ⟨some false, []⟩)
  else if on && a.blocked row col then (a, ⟨some false, []⟩)
  else match a.type with
    | .latchingDualCoil => if a.conn row col == on then (a, ⟨some true, []⟩) else a.switchNode millis row col on
    | .nonLatching =>
      (a.setConn row col on, ⟨some true, a.drive [.setNodeLevel row col level, .commitPhysicalUpdates]⟩)

def clearNode (now : UInt32) (r c : UInt8) (s : TableXPoint × List DriverCall) : TableXPoint × List DriverCall :=
  let a := s.1
  if !a.conn r c then s
  else
    let calls := s.2 ++ a.drive [.setNodeHardware r c false]
    match a.type with
    | .latchingDualCoil =>
      match a.pulses.reclaim r c with
      | (pulses, some slot) => ((a.setConn r c false).setPulses (pulses.put slot ⟨r, c, now, true⟩), calls)
      | (pulses, none) => ((a.setConn r c false).setPulses pulses, s.2)
    | .nonLatching => (a.setConn r c false, calls)

def clearAll (a : TableXPoint) (millis : Clock) : TableXPoint × Reply :=
  if !a.valid then (a, ⟨none, []⟩)
  else
    let now := if a.type = .latchingDualCoil then millis 0 else 0
    let s := (below a.rows).foldl (fun s r => (below a.cols).foldl (fun s c => clearNode now r c s) s) (a, [])
    (s.1, ⟨none, s.2 ++ a.drive [.commitPhysicalUpdates]⟩)

def lockRows (a : TableXPoint) (rowA rowB : UInt8) : TableXPoint × Reply :=
  if !a.valid || rowA ≥ a.rows || rowB ≥ a.rows then (a, ⟨none, []⟩)
  else ((a.setLock rowA rowB).setLock rowB rowA, ⟨none, []⟩)

def exclusiveInput (a : TableXPoint) (col : UInt8) : TableXPoint × Reply :=
  if !a.valid || col ≥ a.cols then (a, ⟨none, []⟩)
  else (a.setExcl col, ⟨none, []⟩)

def update (a : TableXPoint) (millis : Clock) : TableXPoint × Reply :=
  if a.type ≠ .latchingDualCoil then (a, ⟨none, []⟩)
  else
    let (pulses, released) := a.pulses.expire (millis 0) a.pdur
    let commit := if released.isEmpty then [] else [.commitPhysicalUpdates]
    (a.setPulses pulses, ⟨none, a.drive (released.map (fun n => .releaseNode n.1 n.2) ++ commit)⟩)

/-- One call of a public method. -/
def step (a : TableXPoint) (i : Op × Clock) : TableXPoint × Reply :=
  match i.1 with
  | .setDriver drv => a.setDriver drv
  | .begin => a.begin
  | .connect row col => a.connect i.2 row col
  | .disconnect row col => a.disconnect i.2 row col
  | .setLevel row col level => a.setLevel i.2 row col level
  | .clearAll => a.clearAll i.2
  | .lockRows rowA rowB => a.lockRows rowA rowB
  | .exclusiveInput col => a.exclusiveInput col
  | .update => a.update i.2

/-- Nothing is connected, no rule is set and no pulse is in flight. -/
structure Blank (a : TableXPoint) : Prop where
  conn : ∀ r c, a.conn r c = false
  lock : ∀ r s, a.lock r s = false
  excl : ∀ c, a.excl c = false
  pulses : a.pulses = PulseTable.init

theorem blank_init {rows cols : UInt8} {type : RelayType} {pdur : UInt16} {valid : Bool} :
    (init rows cols type pdur valid).Blank :=
  ⟨fun _ _ => rfl, fun _ _ => rfl, fun _ => rfl, rfl⟩

theorem Blank.setDriver {a : TableXPoint} (h : a.Blank) (drv : Option DriverRef) : (a.setDriver drv).1.Blank :=
  ⟨h.conn, h.lock, h.excl, h.pulses⟩

/-- The table machine never gets stuck. -/
abbrev run : TableXPoint → List (Op × Clock) → Option (TableXPoint × List ((Op × Clock) × Reply)) :=
  Machine.run fun a i => some (a.step i)

end TableXPoint

/-- The tables that the packed pool of `x` holds; entries outside the matrix are false. -/
def XPoint.tables (x : XPoint) : TableXPoint where
  rows := x.rows
  cols := x.cols
  type := x.type
  pdur := x.pdur
  drv := x.drv
  valid := x.pool.valid
  conn := fun r c => decide (r < x.rows ∧ c < x.cols) && (x.pool.get (x.nodeBit r c)).getD false
  lock := fun a b => decide (a < x.rows ∧ b < x.rows) && (x.pool.get (x.ilockBit a b)).getD false
  excl := fun c => decide (c < x.cols) && (x.pool.get (x.exclBit c)).getD false
  pulses := x.pulses

end Crosspoint
