import Crosspoint.Hardware
import Crosspoint.XPoint

/-! The matrix in real time. Time is an unbounded counter that `millis()` shows modulo 2^32; it passes between
    the operations, and during the driver calls of an operation. -/

namespace Crosspoint

/-- An operation, the time that passes before it, and the time that each of its driver calls takes. -/
structure TimedOp where
  op : Op
  wait : Nat
  takes : Nat → Nat

/-- A driver call with the times at which it begins and returns. -/
structure TimedCall where
  call : DriverCall
  begins : Nat
  ends : Nat
deriving DecidableEq, Repr

/-- A reply, with the time at which the operation began. -/
structure TimedReply where
  ret : Option Bool
  began : Nat
  calls : List TimedCall
deriving DecidableEq, Repr

namespace TimedOp

/-- The time after `k` driver calls of an operation that began at `start`. -/
def time (i : TimedOp) (start k : Nat) : Nat := start + ((List.range k).map i.takes).sum

/-- What `millis()` reads during the operation. -/
def clock (i : TimedOp) (start : Nat) : Clock := fun k => UInt32.ofNat (i.time start k)

def timed (i : TimedOp) (start : Nat) (calls : List DriverCall) : List TimedCall :=
  calls.mapIdx fun k call => ⟨call, i.time start k, i.time start (k + 1)⟩

end TimedOp

/-- A matrix, and the time at which its last operation ended. -/
structure TimedXPoint where
  matrix : XPoint
  now : Nat

namespace TimedXPoint

def step (s : TimedXPoint) (i : TimedOp) : Option (TimedXPoint × TimedReply) :=
  let start := s.now + i.wait
  (s.matrix.step (i.op, i.clock start)).map fun t =>
    (⟨t.1, i.time start t.2.calls.length⟩, ⟨t.2.ret, start, i.timed start t.2.calls⟩)

abbrev run : TimedXPoint → List TimedOp → Option (TimedXPoint × List (TimedOp × TimedReply)) := Machine.run step

end TimedXPoint

/-- The driver calls of a run, in order. -/
def timedCalls (log : List (TimedOp × TimedReply)) : List TimedCall := log.flatMap fun e => e.2.calls

/-! ### Reading the history -/

/-- The call energises a coil of node `(r, c)`. -/
def TimedCall.sets (r c : UInt8) (t : TimedCall) : Bool := t.call.names r c && t.call.energises

/-- The time of the last `setNodeHardware` of node `(r, c)`. -/
def energisedAt (r c : UInt8) (calls : List TimedCall) : Option Nat :=
  (Traces.lastWhere (TimedCall.sets r c) calls).map TimedCall.begins

/-- How far the last `setNodeHardware` of a node has come: there is none, no commit has followed it, or
    the first commit after it returned at that time. -/
inductive Driven
  | never
  | staged
  | committed (ends : Nat)
deriving DecidableEq, Repr

def Driven.take (r c : UInt8) (d : Driven) (t : TimedCall) : Driven :=
  if t.sets r c then .staged
  else if t.call = .commitPhysicalUpdates ∧ d = .staged then .committed t.ends
  else d

def driven (r c : UInt8) (calls : List TimedCall) : Driven := calls.foldl (Driven.take r c) .never

/-- The operation drove node `(r, c)`. -/
def drives (r c : UInt8) (e : TimedOp × TimedReply) : Bool := e.2.calls.any (TimedCall.sets r c)

/-- The time at which the operation that last drove node `(r, c)` began, if it is a `clearAll`. -/
def sweptAt (r c : UInt8) (log : List (TimedOp × TimedReply)) : Option Nat :=
  (Traces.lastWhere (drives r c) log).bind fun e => if e.1.op = .clearAll then some e.2.began else none

/-- A release comes `pdur` ms or more after the return of the commit that followed the last `setNodeHardware`
    of its node. -/
def Rested (pdur : UInt16) (pre : List TimedCall) (t : TimedCall) : Prop :=
  ∀ r c, t.call = .releaseNode r c → ∃ C, driven r c pre = .committed C ∧ C + pdur.toNat ≤ t.begins

/-- An `update` does not come in the time in which a pulse started by `clearAll` looks due but is not: `pdur` ms
    after `clearAll` began, when it read the clock, but not yet `pdur` ms after its commit returned. -/
def Spaced (pdur : UInt16) (pre : List (TimedOp × TimedReply)) (e : TimedOp × TimedReply) : Prop :=
  e.1.op = .update → ∀ r c S C, sweptAt r c pre = some S → driven r c (timedCalls pre) = .committed C →
    (e.2.began - S) % 4294967296 < pdur.toNat ∨ C + pdur.toNat ≤ e.2.began

/-- The operations of a run, with the times at which they began. -/
def timeline (log : List (TimedOp × TimedReply)) : List (Op × Nat) := log.map fun e => (e.1.op, e.2.began)

/-- The time at which the last `update` of a run that started at `start` began, or `start` if there is none. -/
def lastUpdate (start : Nat) (line : List (Op × Nat)) : Nat :=
  ((Traces.lastWhere (fun e => decide (e.1 = .update)) line).map Prod.snd).getD start

/-- An operation drove node `(r, c)`, none has driven it since, and every `update` since then began before `limit`. -/
def UpdatedBefore (r c : UInt8) (limit : Nat) (log : List (TimedOp × TimedReply)) : Prop :=
  Traces.Since (fun _ e => drives r c e = true)
    (fun e => drives r c e = false ∧ (e.1.op = .update → e.2.began < limit)) log

/-- An `update` begins at most `gap` ms after the one before it began. -/
def Prompt (gap start : Nat) (pre : List (Op × Nat)) (e : Op × Nat) : Prop :=
  e.1 = .update → e.2 ≤ lastUpdate start pre + gap

end Crosspoint
