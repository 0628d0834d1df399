import Crosspoint.Driver
import Crosspoint.Lib.Loops
import Mathlib.Data.List.FinRange

/-! The pulse table of a latching matrix: `MAX_PULSES` slots, each one coil pulse in flight, and the loops
    over them. A `uint8_t freeSlot` whose sentinel is `MAX_PULSES` is an `Option (Fin MAX_PULSES)` here. -/

namespace Crosspoint

abbrev MAX_PULSES : Nat := 8

/-- A slot: the node, the `millis()` reading when the coil was energised, and whether the slot is occupied. -/
structure PulseEvent where
  r : UInt8
  c : UInt8
  t0 : UInt32
  on : Bool
deriving DecidableEq, Repr

/-- The slot is occupied by a pulse of node `(r, c)`. -/
def PulseEvent.names (e : PulseEvent) (r c : UInt8) : Bool := e.on && e.r == r && e.c == c

abbrev PulseTable := Vector PulseEvent MAX_PULSES

namespace PulseTable

/-- The table that `_init` leaves: every slot free. -/
def init : PulseTable := Vector.replicate MAX_PULSES ⟨0, 0, 0, false⟩

/-- `_pulsePending`. -/
def pending (pulses : PulseTable) (row col : UInt8) : Bool :=
  (List.finRange MAX_PULSES).any fun i => (pulses.get i).names row col

/-- The slot search that `connect`, `disconnect` and `setLevel` share. It refuses (`none`) on meeting a
    pulse of the node itself, or when no slot is free; else it gives the first free slot. -/
def allocScan (pulses : PulseTable) (row col : UInt8) (freeSlot : Option (Fin MAX_PULSES)) :
    List (Fin MAX_PULSES) → Option (Fin MAX_PULSES)
  | [] => freeSlot
  | i :: is =>
    if (pulses.get i).on then
      if (pulses.get i).r == row && (pulses.get i).c == col then none
      else allocScan pulses row col freeSlot is
    else allocScan pulses row col (freeSlot <|> some i) is

def alloc (pulses : PulseTable) (row col : UInt8) : Option (Fin MAX_PULSES) :=
  allocScan pulses row col none (List.finRange MAX_PULSES)

/-- One turn of the slot search of `clearAll`: a pulse of the node itself is cancelled and its slot taken,
    also over a free slot found earlier. -/
def reclaimTurn (r c : UInt8) (s : PulseTable × Option (Fin MAX_PULSES)) (i : Fin MAX_PULSES) :
    PulseTable × Option (Fin MAX_PULSES) :=
  if (s.1.get i).names r c then (s.1.put i { s.1.get i with on := false }, some i)
  else if !(s.1.get i).on && s.2.isNone then (s.1, some i)
  else s

def reclaim (pulses : PulseTable) (r c : UInt8) : PulseTable × Option (Fin MAX_PULSES) :=
  (List.finRange MAX_PULSES).foldl (reclaimTurn r c) (pulses, none)

/-- `(now - t0) >= pdur`, in 32 bits. -/
def due (now : UInt32) (pdur : UInt16) (e : PulseEvent) : Bool := now - e.t0 ≥ pdur.toUInt32

/-- One turn of the loop of `update`: a pulse that is due is released and its slot freed. The second
    component lists the nodes released so far, so `any` is that it is not empty. -/
def expireTurn (now : UInt32) (pdur : UInt16) (s : PulseTable × List (UInt8 × UInt8)) (i : Fin MAX_PULSES) :
    PulseTable × List (UInt8 × UInt8) :=
  if !(s.1.get i).on then s
  else if due now pdur (s.1.get i) then (s.1.put i { s.1.get i with on := false }, s.2 ++ [((s.1.get i).r, (s.1.get i).c)])
  else s

def expire (pulses : PulseTable) (now : UInt32) (pdur : UInt16) : PulseTable × List (UInt8 × UInt8) :=
  (List.finRange MAX_PULSES).foldl (expireTurn now pdur) (pulses, [])

end PulseTable

end Crosspoint
