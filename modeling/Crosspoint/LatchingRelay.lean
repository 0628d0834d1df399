import Crosspoint.Timed

/-! The LatchingRelay sketch: two relays of a 2×2 matrix that change together every three seconds. -/

namespace Crosspoint

/-- How long the sketch waits before an operation, and how long the driver calls of the operation take. -/
structure Timing where
  wait : Nat
  takes : Nat → Nat

/-- The time that the parts of `setup()` take: `matrix.begin()`, the two calls of `connect`, and what is left until the
    clock is read. -/
structure SetupTimes where
  begin : Timing
  first : Timing
  second : Timing
  stamp : Nat

/-- The time that the parts of one `loop()` take: `update()`, which comes a while after the `loop()` before, the
    readings of the clock for the comparison and for `lastToggle`, and the two calls that change the relays. -/
structure LoopTimes where
  update : Timing
  check : Nat
  stamp : Nat
  first : Timing
  second : Timing

/-- The globals of the sketch, and the time. -/
structure LatchingRelay where
  matrix : XPoint
  lastToggle : UInt32
  relaysOn : Bool
  now : Nat

/-- What one `loop()` does: its operations, when it compared the clock, and when it set `lastToggle`, if it did. -/
structure LoopReply where
  calls : List ((Op × Clock) × Reply)
  checked : Nat
  toggled : Option Nat

namespace LatchingRelay

/-- An operation on the matrix. -/
def call (s : LatchingRelay) (t : Timing) (op : Op) : Option (LatchingRelay × ((Op × Clock) × Reply)) :=
  let i : TimedOp := ⟨op, t.wait, t.takes⟩
  let start := s.now + t.wait
  (s.matrix.step (op, i.clock start)).map fun m =>
    ({ s with matrix := m.1, now := i.time start m.2.calls.length }, ((op, i.clock start), m.2))

/-- The globals before `setup()`: `XPointStatic<2, 2> matrix(RE_LATCHING_DUAL_COIL, 20)`, whose buffer may hold anything. -/
def new (buf : Vector UInt32 (XPoint.bufWords 2 2).toNat) (now : Nat) : Option LatchingRelay :=
  (XPoint.static 2 2 buf .latchingDualCoil 20).map fun matrix => ⟨matrix, 0, false, now⟩

/-- `setup()`, with `d` for the driver. What `connect` returns is not looked at. -/
def setup (d : DriverRef) (t : SetupTimes) (s : LatchingRelay) : Option (LatchingRelay × List ((Op × Clock) × Reply)) := do
  let s := { s with matrix := (s.matrix.setDriver (some d)).1 }
  let (s, began) ← s.call t.begin .begin
  let (s, first) ← s.call t.first (.connect 0 0)
  let (s, second) ← s.call t.second (.connect 1 1)
  let now := s.now + t.stamp
  return ({ s with relaysOn := true, lastToggle := UInt32.ofNat now, now := now }, [began, first, second])

/-- What `loop()` calls to change the relay of node `(r, r)`. -/
def change (on : Bool) (r : UInt8) : Op := if on then .disconnect r r else .connect r r

/-- `loop()`. What `connect` and `disconnect` return is not looked at. -/
def loop (s : LatchingRelay) (t : LoopTimes) : Option (LatchingRelay × LoopReply) := do
  let (s, updated) ← s.call t.update .update
  let checked := s.now + t.check
  if UInt32.ofNat checked - s.lastToggle ≥ 3000 then
    let stamped := checked + t.stamp
    let on := s.relaysOn
    let (s, first) ← call { s with lastToggle := UInt32.ofNat stamped, now := stamped } t.first (change on 0)
    let (s, second) ← s.call t.second (change on 1)
    return ({ s with relaysOn := !on }, ⟨[updated, first, second], checked, some stamped⟩)
  else return ({ s with now := checked }, ⟨[updated], checked, none⟩)

abbrev run : LatchingRelay → List LoopTimes → Option (LatchingRelay × List (LoopTimes × LoopReply)) := Machine.run loop

end LatchingRelay

/-- The operations of a run, in order. -/
def loopCalls (log : List (LoopTimes × LoopReply)) : List ((Op × Clock) × Reply) := log.flatMap fun e => e.2.calls

/-- When `lastToggle` was set last, in a run that started with it set at `start`. -/
def lastStamp (start : Nat) (log : List (LoopTimes × LoopReply)) : Nat :=
  ((Traces.lastWhere (fun e => e.2.toggled.isSome) log).bind fun e => e.2.toggled).getD start

/-- What a `loop()` from `s` to `s'` does to the relays that last changed at `last`: `relaysOn` flips if the clock is
    compared 3000 ms or more after that, and stays otherwise. The time of the change lies between the comparison and the
    return. -/
structure LatchingRelay.Toggles (last : Nat) (s s' : LatchingRelay) (reply : LoopReply) : Prop where
  checked : s.now ≤ reply.checked ∧ reply.checked ≤ s'.now
  relaysOn : s'.relaysOn = if last + 3000 ≤ reply.checked then !s.relaysOn else s.relaysOn
  toggled : reply.toggled.isSome = true ↔ s'.relaysOn ≠ s.relaysOn
  stamped : ∀ stamp, reply.toggled = some stamp →
    reply.checked ≤ stamp ∧ stamp ≤ s'.now ∧ s'.lastToggle = UInt32.ofNat stamp

/-- `loop()` is called within 2^31 ms of the return of the `loop()` before, and returns within 1490 ms. -/
def LatchingRelay.InTime (s : LatchingRelay) (t : LoopTimes) : Prop :=
  t.update.wait < 2147483648 ∧ ∀ s' reply, s.loop t = some (s', reply) → s'.now ≤ s.now + t.update.wait + 1490

end Crosspoint
