import Crosspoint.Theorems.Refinement
import Mathlib.Data.UInt

/-! Matrices that cannot be told apart by their replies: they may have their pool in other memory, other drivers attached,
    or a clock that counts from another moment. -/

namespace Crosspoint
open Loops PulseTable

/-! ### Slots -/

namespace PulseTable
variable {p q : PulseTable} {r c : UInt8} {Δ t now : UInt32} {pdur : UInt16} {i : Fin MAX_PULSES}
  {free : Option (Fin MAX_PULSES)}

/-- The same slots are in use by the same nodes, and `q` reads a clock that is ahead by `Δ`. What free slots hold does not
    matter. -/
def Delayed (Δ : UInt32) (p q : PulseTable) : Prop := ∀ i : Fin MAX_PULSES, (q.get i).on = (p.get i).on ∧
  ((p.get i).on = true → q.get i = { p.get i with t0 := (p.get i).t0 + Δ })

theorem Delayed.refl (p : PulseTable) : Delayed 0 p p := fun i => ⟨rfl, fun _ => by rw [UInt32.add_zero]⟩

theorem Delayed.symm (h : Delayed 0 p q) : Delayed 0 q p := fun i => by
  obtain ⟨hon, hsame⟩ := h i
  refine ⟨hon.symm, fun hi => ?_⟩
  rw [hsame (hon ▸ hi)]
  simp only [UInt32.add_zero]

theorem Delayed.init : Delayed Δ PulseTable.init PulseTable.init := fun i =>
  ⟨rfl, fun hi => absurd hi (by rw [idle_init i]; exact Bool.false_ne_true)⟩

theorem Delayed.names (h : Delayed Δ p q) (i : Fin MAX_PULSES) (r c : UInt8) :
    (q.get i).names r c = (p.get i).names r c := by
  obtain ⟨hon, hsame⟩ := h i
  cases hi : (p.get i).on with
  | false => simp [PulseEvent.names, hon, hi]
  | true =>
    rw [hsame hi]
    rfl

theorem Delayed.pending (h : Delayed Δ p q) (r c : UInt8) : q.pending r c = p.pending r c := by
  rw [PulseTable.pending, PulseTable.pending]
  simp only [h.names]

theorem Delayed.allocScan (h : Delayed Δ p q) (l : List (Fin MAX_PULSES)) :
    q.allocScan r c free l = p.allocScan r c free l := by
  induction l generalizing free with
  | nil => rfl
  | cons i l ih =>
    obtain ⟨hon, hsame⟩ := h i
    rw [PulseTable.allocScan, PulseTable.allocScan, hon, ih, ih]
    split
    · rename_i hi
      rw [hsame hi]
    · rfl

theorem Delayed.put (h : Delayed Δ p q) (i : Fin MAX_PULSES) (r c : UInt8) (t : UInt32) :
    Delayed Δ (Vector.put p i ⟨r, c, t, true⟩) (Vector.put q i ⟨r, c, t + Δ, true⟩) := fun j => by
  rw [Vector.get_put, Vector.get_put]
  split
  · exact ⟨rfl, fun _ => rfl⟩
  · exact h j

theorem Delayed.freed (h : Delayed Δ p q) (i : Fin MAX_PULSES) : Delayed Δ (p.freed i) (q.freed i) := fun j => by
  rw [get_freed, get_freed]
  split
  · exact ⟨rfl, fun hon => by cases hon⟩
  · exact h j

/-- The searches and the loop over the slots do the same on both. -/
def Alike {α : Type} (Δ : UInt32) (s t : PulseTable × α) : Prop := Delayed Δ s.1 t.1 ∧ t.2 = s.2

theorem Delayed.reclaim (h : Delayed Δ p q) (r c : UInt8) : Alike Δ (p.reclaim r c) (q.reclaim r c) := by
  refine List.foldl_rel (r := Alike Δ) ⟨h, rfl⟩ fun i _ s t hst => ?_
  obtain ⟨hst, hfree⟩ := hst
  rw [reclaimTurn, reclaimTurn, hst.names, (hst i).1, hfree]
  split
  · exact ⟨hst.freed i, rfl⟩
  · split
    · exact ⟨hst, rfl⟩
    · exact ⟨hst, hfree⟩

/-- Ages are differences of readings. -/
theorem due_later (e : PulseEvent) : due (now + Δ) pdur { e with t0 := e.t0 + Δ } = due now pdur e := by
  have hage : now + Δ - (e.t0 + Δ) = now - e.t0 := add_sub_add_right_eq_sub now e.t0 Δ
  change decide (now + Δ - (e.t0 + Δ) ≥ pdur.toUInt32) = _
  rw [hage, due]

theorem Delayed.expire (h : Delayed Δ p q) (now : UInt32) (pdur : UInt16) :
    Alike Δ (p.expire now pdur) (q.expire (now + Δ) pdur) := by
  refine List.foldl_rel (r := Alike Δ) ⟨h, rfl⟩ fun i _ s t hst => ?_
  obtain ⟨hst, hout⟩ := hst
  obtain ⟨hon, hsame⟩ := hst i
  rw [expireTurn, expireTurn, hon]
  split
  · exact ⟨hst, hout⟩
  · rename_i hi
    have hi : (s.1.get i).on = true := by simpa only [Bool.not_eq_true', Bool.not_eq_false] using hi
    rw [hsame hi, due_later]
    split
    · refine ⟨?_, by rw [hout]⟩
      have hfreed := hst.freed i
      rwa [PulseTable.freed, PulseTable.freed, hsame hi] at hfreed
    · exact ⟨hst, hout⟩

end PulseTable

/-! ### Tables -/

namespace TableXPoint
variable {a b : TableXPoint} {Δ now now' : UInt32} {r c row col : UInt8} {on : Bool} {millis millis' : Clock}
  {cs : List DriverCall}

/-- The same tables, with slots in use for the same nodes; the drivers may be others. -/
structure Like (Δ : UInt32) (a b : TableXPoint) : Prop where
  rows : b.rows = a.rows
  cols : b.cols = a.cols
  type : b.type = a.type
  pdur : b.pdur = a.pdur
  valid : b.valid = a.valid
  conn : b.conn = a.conn
  lock : b.lock = a.lock
  excl : b.excl = a.excl
  pulses : Delayed Δ a.pulses b.pulses

/-- The same answer, the same calls as far as a driver is attached, and tables that are alike again. -/
structure Echoes (Δ : UInt32) (a b : TableXPoint) (s t : TableXPoint × Reply) : Prop where
  like : Like Δ s.1 t.1
  ret : t.2.ret = s.2.ret
  calls : ∃ cs, s.2.calls = a.drive cs ∧ t.2.calls = b.drive cs

/-- The clocks of an operation differ by `Δ` where it may read them. -/
def Reads (Δ : UInt32) (a b : TableXPoint) (millis millis' : Clock) : Prop :=
  ∀ cs, millis' (b.drive cs).length = millis (a.drive cs).length + Δ

theorem Reads.first (h : Reads Δ a b millis millis') : millis' 0 = millis 0 + Δ := by
  have h := h []
  rwa [drive_nil, drive_nil] at h

namespace Like

theorem refl (a : TableXPoint) : Like 0 a a := ⟨rfl, rfl, rfl, rfl, rfl, rfl, rfl, rfl, .refl _⟩

theorem symm (h : Like 0 a b) : Like 0 b a :=
  ⟨h.rows.symm, h.cols.symm, h.type.symm, h.pdur.symm, h.valid.symm, h.conn.symm, h.lock.symm, h.excl.symm, h.pulses.symm⟩

theorem setConn (h : Like Δ a b) (r c : UInt8) (v : Bool) : Like Δ (a.setConn r c v) (b.setConn r c v) :=
  { h with conn := congrArg (fun t => setEntry t r c v) h.conn }

theorem setPulses (h : Like Δ a b) {p q : PulseTable} (hp : Delayed Δ p q) : Like Δ (a.setPulses p) (b.setPulses q) :=
  { h with pulses := hp }

theorem setLock (h : Like Δ a b) (r s : UInt8) : Like Δ (a.setLock r s) (b.setLock r s) :=
  { h with lock := congrArg (fun t => setEntry t r s true) h.lock }

theorem setExcl (h : Like Δ a b) (col : UInt8) : Like Δ (a.setExcl col) (b.setExcl col) :=
  { h with excl := congrArg (fun (t : UInt8 → Bool) c => if c = col then true else t c) h.excl }

theorem idle (h : Like Δ a b) (ret : Option Bool) : Echoes Δ a b (a, ⟨ret, []⟩) (b, ⟨ret, []⟩) :=
  ⟨h, rfl, [], drive_nil.symm, drive_nil.symm⟩

theorem occupied (h : Like Δ a b) : b.occupied = a.occupied := by
  funext r c
  rw [TableXPoint.occupied, TableXPoint.occupied, h.conn, h.pulses.pending]

theorem blocked (h : Like Δ a b) : b.blocked row col = a.blocked row col := by
  simp only [TableXPoint.blocked, interlocked, exclusiveTaken, h.rows, h.lock, h.excl, h.occupied]

theorem outside (h : Like Δ a b) : (!a.valid || decide (row ≥ a.rows) || decide (col ≥ a.cols)) =
    (!b.valid || decide (row ≥ b.rows) || decide (col ≥ b.cols)) := by
  rw [h.valid, h.rows, h.cols]

theorem switchNode (h : Like Δ a b) (hclock : Reads Δ a b millis millis') :
    Echoes Δ a b (a.switchNode millis row col on) (b.switchNode millis' row col on) := by
  unfold TableXPoint.switchNode
  rw [h.type]
  cases a.type with
  | latchingDualCoil =>
    have halloc : b.pulses.alloc row col = a.pulses.alloc row col := h.pulses.allocScan _
    dsimp only
    rw [halloc]
    cases a.pulses.alloc row col with
    | none => exact h.idle _
    | some slot =>
      refine ⟨(h.setConn row col on).setPulses ?_, rfl, _, rfl, rfl⟩
      rw [hclock]
      exact h.pulses.put slot row col _
  | nonLatching => exact ⟨h.setConn row col on, rfl, _, rfl, rfl⟩

theorem connect (h : Like Δ a b) (hclock : Reads Δ a b millis millis') :
    Echoes Δ a b (a.connect millis row col) (b.connect millis' row col) :=
  ite_rel h.outside (h.idle _) fun _ => ite_rel h.blocked.symm (h.idle _) fun _ =>
    ite_rel (by rw [h.conn]) (h.idle _) fun _ => h.switchNode hclock

theorem disconnect (h : Like Δ a b) (hclock : Reads Δ a b millis millis') :
    Echoes Δ a b (a.disconnect millis row col) (b.disconnect millis' row col) :=
  ite_rel h.outside (h.idle _) fun _ => ite_rel (by rw [h.conn]) (h.idle _) fun _ => h.switchNode hclock

theorem setLevel (h : Like Δ a b) (hclock : Reads Δ a b millis millis') (level : UInt16) :
    Echoes Δ a b (a.setLevel millis row col level) (b.setLevel millis' row col level) := by
  refine ite_rel h.outside (h.idle _) fun _ => ite_rel (by rw [h.blocked]) (h.idle _) fun _ => ?_
  rw [h.type]
  cases a.type with
  | latchingDualCoil => exact ite_rel (by rw [h.conn]) (h.idle _) fun _ => h.switchNode hclock
  | nonLatching => exact ⟨h.setConn row col _, rfl, _, rfl, rfl⟩

/-- Two sweeps of `clearAll`, and the calls that they have made. -/
structure Sweep (Δ : UInt32) (a b : TableXPoint) (s t : TableXPoint × List DriverCall) : Prop where
  like : Like Δ s.1 t.1
  type : s.1.type = a.type
  drv : s.1.drv = a.drv ∧ t.1.drv = b.drv
  calls : ∃ cs, s.2 = a.drive cs ∧ t.2 = b.drive cs

theorem clearNode {s t : TableXPoint × List DriverCall} (h : Sweep Δ a b s t)
    (hnow : a.type = .latchingDualCoil → now' = now + Δ)
    (r c : UInt8) : Sweep Δ a b (clearNode now r c s) (clearNode now' r c t) := by
  obtain ⟨hlike, htype, ⟨hs, ht⟩, cs, hcs, hct⟩ := h
  have hcalls : s.2 ++ s.1.drive [.setNodeHardware r c false] = a.drive (cs ++ [.setNodeHardware r c false]) ∧
      t.2 ++ t.1.drive [.setNodeHardware r c false] = b.drive (cs ++ [.setNodeHardware r c false]) := by
    rw [drive_append, drive_append, hcs, hct, drive_congr hs, drive_congr ht]
    exact ⟨rfl, rfl⟩
  unfold TableXPoint.clearNode
  refine ite_rel (by rw [hlike.conn]) ⟨hlike, htype, ⟨hs, ht⟩, cs, hcs, hct⟩ fun _ => ?_
  rw [hlike.type, htype]
  cases hlatch : a.type with
  | latchingDualCoil =>
    have hreclaim := hlike.pulses.reclaim r c
    generalize s.1.pulses.reclaim r c = u at hreclaim ⊢
    generalize t.1.pulses.reclaim r c = v at hreclaim ⊢
    rcases u with ⟨p, slot⟩
    rcases v with ⟨q, slot'⟩
    obtain ⟨hpulses, hslot⟩ := hreclaim
    obtain rfl : slot' = slot := hslot
    cases slot' with
    | none => exact ⟨(hlike.setConn r c false).setPulses hpulses, htype, ⟨hs, ht⟩, cs, hcs, hct⟩
    | some slot =>
      refine ⟨(hlike.setConn r c false).setPulses ?_, htype, ⟨hs, ht⟩, _, hcalls⟩
      rw [hnow hlatch]
      exact hpulses.put slot r c now
  | nonLatching => exact ⟨hlike.setConn r c false, htype, ⟨hs, ht⟩, _, hcalls⟩

theorem clearAll (h : Like Δ a b) (hclock : Reads Δ a b millis millis') :
    Echoes Δ a b (a.clearAll millis) (b.clearAll millis') := by
  refine ite_rel (by rw [h.valid]) (h.idle _) fun _ => ?_
  rw [h.rows, h.cols, h.type]
  have hnow : a.type = .latchingDualCoil → (if a.type = .latchingDualCoil then millis' 0 else 0) =
      (if a.type = .latchingDualCoil then millis 0 else 0) + Δ := fun ht => by
    rw [if_pos ht, if_pos ht, hclock.first]
  have hsweep : Sweep Δ a b (a, []) (b, []) := ⟨h, rfl, ⟨rfl, rfl⟩, [], drive_nil.symm, drive_nil.symm⟩
  obtain ⟨hlike, -, -, cs, hcs, hct⟩ := List.foldl_rel (r := Sweep Δ a b) hsweep fun r _ s t hst =>
    List.foldl_rel (r := Sweep Δ a b) (l := below a.cols) hst fun c _ s t hst => clearNode hst hnow r c
  refine ⟨hlike, rfl, cs ++ [.commitPhysicalUpdates], ?_, ?_⟩
  · rw [drive_append, ← hcs]
  · rw [drive_append, ← hct]

theorem lockRows (h : Like Δ a b) (rowA rowB : UInt8) : Echoes Δ a b (a.lockRows rowA rowB) (b.lockRows rowA rowB) :=
  ite_rel (by rw [h.valid, h.rows]) (h.idle _) fun _ =>
    ⟨(h.setLock rowA rowB).setLock rowB rowA, rfl, [], drive_nil.symm, drive_nil.symm⟩

theorem exclusiveInput (h : Like Δ a b) (col : UInt8) : Echoes Δ a b (a.exclusiveInput col) (b.exclusiveInput col) :=
  ite_rel (by rw [h.valid, h.cols]) (h.idle _) fun _ => ⟨h.setExcl col, rfl, [], drive_nil.symm, drive_nil.symm⟩

theorem update (h : Like Δ a b) (hclock : Reads Δ a b millis millis') :
    Echoes Δ a b (a.update millis) (b.update millis') := by
  unfold TableXPoint.update
  rw [h.type, h.pdur, hclock.first]
  split
  · exact h.idle _
  · have hexpire := h.pulses.expire (millis 0) a.pdur
    generalize a.pulses.expire (millis 0) a.pdur = u at hexpire ⊢
    generalize b.pulses.expire (millis 0 + Δ) a.pdur = v at hexpire ⊢
    rcases u with ⟨p, released⟩
    rcases v with ⟨q, released'⟩
    obtain ⟨hpulses, hreleased⟩ := hexpire
    obtain rfl : released' = released := hreleased
    exact ⟨h.setPulses hpulses, rfl, _, rfl, rfl⟩

/-- Matrices that are alike answer alike, and still are. -/
theorem step (h : Like Δ a b) (hclock : Reads Δ a b millis millis') (op : Op) :
    Echoes Δ a b (a.step (op, millis)) (b.step (op, millis')) := by
  unfold TableXPoint.step
  cases op with
  | setDriver drv => exact ⟨{ h with }, rfl, [], drive_nil.symm, drive_nil.symm⟩
  | begin => exact ⟨h, rfl, [.begin], rfl, rfl⟩
  | connect row col => exact h.connect hclock
  | disconnect row col => exact h.disconnect hclock
  | setLevel row col level => exact h.setLevel hclock level
  | clearAll => exact h.clearAll hclock
  | lockRows rowA rowB => exact h.lockRows rowA rowB
  | exclusiveInput col => exact h.exclusiveInput col
  | update => exact h.update hclock

end Like

/-- Matrices with the same driver still have the same one after the same operation. -/
theorem step_drv_congr (ha : a.pulses.Distinct) (hb : b.pulses.Distinct) (hdrv : b.drv = a.drv) (op : Op) :
    (b.step (op, millis')).1.drv = (a.step (op, millis)).1.drv := by
  by_cases hop : ∃ drv, op = .setDriver drv
  · rcases hop with ⟨drv, rfl⟩
    rfl
  · have hop : ∀ drv, op ≠ .setDriver drv := fun drv h => hop ⟨drv, h⟩
    obtain ⟨es, ha⟩ := step_events ha (op, millis)
    obtain ⟨es', hb⟩ := step_events hb (op, millis')
    rw [ha.drv hop, hb.drv hop, hdrv]

end TableXPoint

/-! ### A clock that counts from another moment -/

/-- The same call when the clock is ahead by `Δ`. -/
def later (Δ : UInt32) (i : Op × Clock) : Op × Clock := (i.1, fun k => i.2 k + Δ)

namespace XPoint
variable {x y : XPoint} {rows cols : UInt8} {type : RelayType} {pdur : UInt16} {Δ : UInt32}

/-- Matrices with one driver, alike but for the clock. -/
structure Twin (Δ : UInt32) (x y : XPoint) : Prop where
  left : x.WellFormed
  right : y.WellFormed
  distinct : x.pulses.Distinct ∧ y.pulses.Distinct
  drv : y.drv = x.drv
  like : TableXPoint.Like Δ x.tables y.tables

theorem Twin.step (h : Twin Δ x y) (i : Op × Clock) :
    ∃ x' rep y', x.step i = some (x', rep) ∧ y.step (later Δ i) = some (y', rep) ∧ Twin Δ x' y' := by
  obtain ⟨op, millis⟩ := i
  obtain ⟨x', rep, hx, hwfx, htx⟩ := step_matches h.left (op, millis)
  obtain ⟨y', rep', hy, hwfy, hty⟩ := step_matches h.right (later Δ (op, millis))
  have hdrive : ∀ cs, y.tables.drive cs = x.tables.drive cs := fun cs => TableXPoint.drive_congr h.drv cs
  have hclock : TableXPoint.Reads Δ x.tables y.tables millis (later Δ (op, millis)).2 := fun cs => by
    rw [hdrive]
    rfl
  have hecho : TableXPoint.Echoes Δ x.tables y.tables (x.tables.step (op, millis)) (y.tables.step (later Δ (op, millis))) :=
    h.like.step hclock op
  have hdrv : (y.tables.step (later Δ (op, millis))).1.drv = (x.tables.step (op, millis)).1.drv :=
    TableXPoint.step_drv_congr h.distinct.1 h.distinct.2 h.drv op
  have hdx : (x.tables.step (op, millis)).1.pulses.Distinct := TableXPoint.step_distinct h.distinct.1 _
  have hdy : (y.tables.step (later Δ (op, millis))).1.pulses.Distinct := TableXPoint.step_distinct h.distinct.2 _
  rw [htx] at hecho hdrv hdx
  rw [hty] at hecho hdrv hdy
  obtain ⟨hlike, hret, cs, hcs, hcs'⟩ := hecho
  have hrep : rep' = rep := by
    have hcalls : rep'.calls = rep.calls := hcs'.trans ((hdrive cs).trans hcs.symm)
    cases rep
    cases rep'
    exact congrArg₂ Reply.mk hret hcalls
  exact ⟨x', rep, y', hx, hrep ▸ hy, hwfx, hwfy, ⟨hdx, hdy⟩, hdrv, hlike⟩

/-- What `millis()` counts from makes no difference: a run with every reading of the clock moved by `Δ`, over a rollover or
    not, makes the same replies and driver calls, and leaves the same tables. -/
theorem run_shifted (h : Built rows cols type pdur x) (Δ : UInt32) (ops : List (Op × Clock)) :
    ∃ y z log, x.run ops = some (y, log) ∧ x.run (ops.map (later Δ)) = some (z, log.map fun e => (later Δ e.1, e.2)) ∧
      TableXPoint.Like Δ y.tables z.tables := by
  obtain ⟨hwf, ht⟩ := h.spec
  have hlike : TableXPoint.Like Δ x.tables x.tables := by
    rw [ht]
    exact ⟨rfl, rfl, rfl, rfl, rfl, rfl, rfl, rfl, PulseTable.Delayed.init⟩
  have hstart : Twin Δ x x := ⟨hwf, hwf, ⟨h.distinct, h.distinct⟩, rfl, hlike⟩
  have hops : List.Forall₂ (fun i j => later Δ i = j) ops (ops.map (later Δ)) :=
    List.forall₂_map_right_iff.mpr (List.forall₂_same.mpr fun _ _ => rfl)
  obtain ⟨y, log, z, log', hy, hz, hend, hlog⟩ := Machine.run_lockstep (E := fun e f => (later Δ e.1, e.2) = f)
    (fun s t i j hst hij => by
      obtain ⟨s', rep, t', hs, ht, hst⟩ := Twin.step hst i
      exact ⟨s', rep, t', rep, hs, hij ▸ ht, hst, hij ▸ rfl⟩) hstart hops
  have hlog : log.map (fun e => (later Δ e.1, e.2)) = log' := by
    rw [← List.forall₂_map_left_iff, List.forall₂_eq_eq_eq] at hlog
    exact hlog
  exact ⟨y, z, log, hy, hlog ▸ hz, hend.like⟩

theorem run_shifted_rollover :
    let ops : List (Op × Clock) := [(.setDriver (some 0), fun _ => 0), (.connect 0 1, fun _ => 10), (.update, fun _ => 14),
      (.update, fun _ => 15)]
    ∃ x, heap 2 2 .latchingDualCoil 5 = some x ∧ ∃ y z log, x.run ops = some (y, log) ∧
      driverCalls log = [.setNodeHardware 0 1 true, .commitPhysicalUpdates, .releaseNode 0 1, .commitPhysicalUpdates] ∧
      x.run (ops.map (later 4294967283)) = some (z, log.map fun e => (later 4294967283 e.1, e.2)) ∧
        TableXPoint.Like 4294967283 y.tables z.tables := by
  intro ops
  have hcalls : ((heap 2 2 .latchingDualCoil 5).bind fun x => (x.run ops).map fun p => driverCalls p.2) =
      some [.setNodeHardware 0 1 true, .commitPhysicalUpdates, .releaseNode 0 1, .commitPhysicalUpdates] := by
    decide +kernel
  obtain ⟨x, y, log, hx, hrun, hcalls⟩ := Machine.run_of_bind hcalls
  obtain ⟨y', z, log', hrun', hshifted⟩ := run_shifted (.heap hx) 4294967283 ops
  obtain ⟨rfl, rfl⟩ := Prod.mk.inj (Option.some.inj (hrun'.symm.trans hrun))
  exact ⟨x, hx, y', z, log', hrun, hcalls, hshifted⟩

/-! ### A pool in other memory -/

theorem staticWords_eq (rows cols : UInt8) : staticWords rows cols = poolWords rows cols := by
  rw [poolWords, BitPool.wordsFor]
  split
  · rename_i hzero
    rw [staticWords, hzero]
    rfl
  · rfl

theorem poolWords_le_bufWords (rows cols : UInt8) : (poolWords rows cols).toNat ≤ (bufWords rows cols).toNat := by
  rw [bufWords, staticWords_eq]
  split
  · exact le_rfl
  · rename_i hzero
    rw [UInt16.not_lt] at hzero
    exact (UInt16.le_iff_toNat_le.mp hzero).trans (Nat.zero_le _)

/-- A static matrix is a matrix on a pool that is large enough. -/
theorem exists_static (rows cols : UInt8) (buf : Vector UInt32 (bufWords rows cols).toNat) (type : RelayType)
    (pdur : UInt16) : ∃ x, static rows cols buf type pdur = some x ∧ Built rows cols type pdur x := by
  have room : (poolWords rows cols).toNat ≤ buf.toArray.size := by
    rw [buf.size_toArray]
    exact poolWords_le_bufWords rows cols
  obtain ⟨x, hx⟩ := (exists_built rows cols type pdur).2 buf.toArray room
  exact ⟨x, hx, .onPool _ room hx⟩

theorem init_valid (h : init x = some y) : y.pool.valid = x.pool.valid := by
  obtain ⟨pool, hclear, rfl⟩ := Option.map_eq_some_iff.mp h
  change pool.words.isSome = x.pool.words.isSome
  rw [BitPool.clear] at hclear
  split at hclear
  · obtain rfl := Option.some.inj hclear
    rfl
  · rename_i hwords
    split at hclear
    · obtain rfl := Option.some.inj hclear
      rw [hwords]
      rfl
    · cases hclear

/-- The shortest run that tells whether a matrix without nodes has a pool: with a pool, `clearAll` commits. -/
def clearing : List (Op × Clock) := [(.setDriver (some 0), fun _ => 0), (.clearAll, fun _ => 0)]

theorem clearing_calls {log : List ((Op × Clock) × Reply)} (h : Built 0 0 type pdur x)
    (hrun : x.run clearing = some (y, log)) : driverCalls log = if x.pool.valid then [.commitPhysicalUpdates] else [] := by
  obtain ⟨hwf, ht⟩ := h.spec
  obtain ⟨y', log', hrun', -, htab⟩ := run_tables hwf clearing
  obtain ⟨-, rfl⟩ := Prod.mk.inj (Option.some.inj (hrun'.symm.trans hrun))
  rw [ht] at htab
  cases hv : x.pool.valid with
  | false =>
    rw [hv] at htab
    obtain ⟨-, rfl⟩ := Prod.mk.inj (Option.some.inj htab)
    rfl
  | true =>
    rw [hv] at htab
    obtain ⟨-, rfl⟩ := Prod.mk.inj (Option.some.inj htab)
    rfl

/-- `XPointStatic` is the heap matrix without a heap: whatever its buffer holds at first, it makes the same replies and
    driver calls in every run, but for a matrix with neither rows nor columns, which has a pool only as a static one. -/
theorem static_agrees_iff (rows cols : UInt8) (buf : Vector UInt32 (bufWords rows cols).toNat) (type : RelayType)
    (pdur : UInt16) :
    (∃ x y, heap rows cols type pdur = some x ∧ static rows cols buf type pdur = some y ∧ ∀ ops : List (Op × Clock),
      ∃ x' y' log, x.run ops = some (x', log) ∧ y.run ops = some (y', log)) ↔ rows ≠ 0 ∨ cols ≠ 0 := by
  obtain ⟨x, hx⟩ := (exists_built rows cols type pdur).1
  obtain ⟨y, hy, hbuilt⟩ := exists_static rows cols buf type pdur
  constructor
  · rintro ⟨x', y', hx', hy', hall⟩
    by_contra hzero
    obtain ⟨rfl, rfl⟩ : rows = 0 ∧ cols = 0 := by simpa using hzero
    obtain rfl := Option.some.inj (hx.symm.trans hx')
    obtain rfl := Option.some.inj (hy.symm.trans hy')
    obtain ⟨x', y', log, hrunx, hruny⟩ := hall clearing
    have hcalls := clearing_calls (.heap hx) hrunx
    have hvalidx : x.pool.valid = (BitPool.heap (poolBits 0 0)).valid := init_valid hx
    rw [static, onPool] at hy
    have hvalidy : y.pool.valid = true := init_valid hy
    rw [clearing_calls hbuilt hruny, hvalidx, hvalidy] at hcalls
    exact absurd hcalls (by decide)
  · intro hsize
    have hvalid : x.pool.valid = y.pool.valid := by
      rcases (Built.heap hx).same_valid hbuilt with hv | ⟨hr, hc⟩
      · exact hv
      · exact absurd hsize (by simp [hr, hc])
    refine ⟨x, y, hx, hy, fun ops => ?_⟩
    obtain ⟨hwfx, htx⟩ := (Built.heap hx).spec
    obtain ⟨hwfy, hty⟩ := hbuilt.spec
    obtain ⟨x', log, hrunx, -, htabx⟩ := run_tables hwfx ops
    obtain ⟨y', log', hruny, -, htaby⟩ := run_tables hwfy ops
    rw [htx, hvalid] at htabx
    rw [hty] at htaby
    obtain ⟨-, rfl⟩ := Prod.mk.inj (Option.some.inj (htabx.symm.trans htaby))
    exact ⟨x', y', log, hrunx, hruny⟩

end XPoint

/-! ### Other drivers -/

/-- The call works on the tables; the others only attach a driver or start it. -/
def Op.tabled : Op → Bool
  | .setDriver _ | .begin => false
  | _ => true

namespace XPoint
variable {x y : XPoint} {rows cols : UInt8} {type : RelayType} {pdur : UInt16} {is js : List (Op × UInt32)}

/-- A call that reads one value of the clock throughout, as it does when its driver calls take less than a millisecond. -/
def stillStep (x : XPoint) (i : Op × UInt32) : Option (XPoint × Reply) := x.step (i.1, fun _ => i.2)

/-- The answers of the calls that work on the tables. -/
def answers (log : List ((Op × UInt32) × Reply)) : List (Option Bool) :=
  log.flatMap fun e => if e.1.1.tabled then [e.2.ret] else []

/-- The tables are alike, whatever the drivers. -/
structure Deaf (x y : XPoint) : Prop where
  left : x.WellFormed
  right : y.WellFormed
  like : TableXPoint.Like 0 x.tables y.tables

theorem Deaf.setDriver (h : Deaf x y) (drv : Option DriverRef) : Deaf (x.setDriver drv).1 y where
  left := ⟨h.left.bits, h.left.words, h.left.sound⟩
  right := h.right
  like := { h.like with }

theorem Deaf.step (h : Deaf x y) (i : Op × UInt32) : ∃ x' rep y' rep', x.stillStep i = some (x', rep) ∧
    y.stillStep i = some (y', rep') ∧ Deaf x' y' ∧ rep'.ret = rep.ret := by
  obtain ⟨op, now⟩ := i
  obtain ⟨x', rep, hx, hwfx, htx⟩ := step_matches h.left (op, fun _ => now)
  obtain ⟨y', rep', hy, hwfy, hty⟩ := step_matches h.right (op, fun _ => now)
  have hecho : TableXPoint.Echoes 0 x.tables y.tables (x.tables.step (op, fun _ => now))
      (y.tables.step (op, fun _ => now)) :=
    h.like.step (fun _ => (UInt32.add_zero now).symm) op
  rw [htx, hty] at hecho
  exact ⟨x', rep, y', rep', hx, hy, ⟨hwfx, hwfy, hecho.like⟩, hecho.ret⟩

theorem unwinding_deaf : Machine.Unwinding stillStep Deaf (fun i => Option.guard (fun i => i.1.tabled) i)
    (fun e => if e.1.1.tabled then [e.2.ret] else []) where
  symm _ _ h := ⟨h.right, h.left, h.like.symm⟩
  hidden x y i h hi := by
    obtain ⟨op, now⟩ := i
    have hop : op.tabled = false := by simpa using hi
    cases op with
    | setDriver drv => exact ⟨_, _, rfl, h.setDriver drv, rfl⟩
    | begin => exact ⟨_, _, rfl, h, rfl⟩
    | _ => cases hop
  seen x y i j k h hi hj := by
    obtain rfl : j = k := (Option.guard_eq_some_iff.mp hj).1
    obtain ⟨rfl, hop⟩ : i = j ∧ i.1.tabled = true := Option.guard_eq_some_iff.mp hi
    obtain ⟨x', rep, y', rep', hx, hy, hdeaf, hret⟩ := h.step i
    exact ⟨x', rep, y', rep', hx, hy, hdeaf, by rw [hret]⟩

/-- The matrix learns nothing from its driver: two runs with the same calls on the tables give these the same answers
    and end with tables that are alike, whichever drivers are attached or started in between, and wherever. -/
theorem run_ignores_driver (h : Built rows cols type pdur x)
    (hops : is.filter (fun i => i.1.tabled) = js.filter (fun i => i.1.tabled)) :
    ∃ y log z log', Machine.run stillStep x is = some (y, log) ∧ Machine.run stillStep x js = some (z, log') ∧
      TableXPoint.Like 0 y.tables z.tables ∧ answers log = answers log' := by
  obtain ⟨hwf, -⟩ := h.spec
  rw [← List.filterMap_eq_filter] at hops
  obtain ⟨y, log, z, log', hy, hz, hdeaf, hview⟩ := unwinding_deaf.runs_agree ⟨hwf, hwf, .refl _⟩ hops
  exact ⟨y, log, z, log', hy, hz, hdeaf.like, hview⟩

theorem run_ignores_driver_two_by_two : ∃ x, heap 2 2 .latchingDualCoil 5 = some x ∧ ∃ y log z log',
    Machine.run stillStep x [(.connect 0 1, 3), (.begin, 4), (.update, 8)] = some (y, log) ∧
      Machine.run stillStep x [(.setDriver (some 1), 0), (.connect 0 1, 3), (.setDriver none, 7), (.update, 8)] =
        some (z, log') ∧ TableXPoint.Like 0 y.tables z.tables ∧ answers log = answers log' := by
  obtain ⟨x, hx⟩ := (exists_built 2 2 .latchingDualCoil 5).1
  exact ⟨x, hx, run_ignores_driver (.heap hx) (by decide)⟩

end XPoint

end Crosspoint
