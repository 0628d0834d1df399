import Crosspoint.Theorems.Interlock

/-! The columns of a non-latching matrix are isolated from one another: what happens in a column is a matter of
    the operations on it, of `lockRows` and of `clearAll`, whatever goes on in the other columns in between. -/

namespace Crosspoint
open Loops

/-- The operation is relevant to column `c`. -/
def Op.concerns (c : UInt8) : Op → Bool
  | .connect _ col | .disconnect _ col | .setLevel _ col _ | .exclusiveInput col => col == c
  | .lockRows _ _ | .clearAll => true
  | _ => false

def Op.attaches : Op → Bool
  | .setDriver _ => true
  | _ => false

/-- The operations of a kind, in order. -/
def selected (p : Op → Bool) (ops : List (Op × Clock)) : List Op := ops.filterMap fun i => Option.guard p i.1

/-- The results of the operations relevant to column `c`, in order. -/
def returns (c : UInt8) (log : List ((Op × Clock) × Reply)) : List (Option Bool) :=
  log.flatMap fun e => if e.1.1.concerns c then [e.2.ret] else []

/-- The call is a `setNodeHardware` or a `setNodeLevel` of a node of column `c`. -/
def DriverCall.inColumn (c : UInt8) : DriverCall → Bool
  | .setNodeHardware _ c' _ | .setNodeLevel _ c' _ => c' == c
  | _ => false

def columnCalls (c : UInt8) (calls : List DriverCall) : List DriverCall := calls.filter (DriverCall.inColumn c)

/-- The event touches column `c` neither in the tables nor at the driver. -/
def Event.avoids (c : UInt8) : Event → Prop
  | .switch _ col _ | .level _ col _ | .pulse _ col _ | .repulse _ col | .skip _ col | .exclude col => col ≠ c
  | .lock _ _ => False
  | _ => True

theorem Event.columnCalls_avoids {c : UInt8} {e : Event} (h : e.avoids c) : columnCalls c e.calls = [] := by
  cases e with
  | switch | level | pulse | repulse =>
    refine List.filter_eq_nil_iff.mpr fun call hcall hin => ?_
    rw [List.mem_singleton.mp hcall] at hin
    exact h (eq_of_beq hin)
  | _ => rfl

theorem Op.emits_avoids {c : UInt8} {op : Op} {e : Event} (hop : op.concerns c = false) (h : op.Emits e) : e.avoids c := by
  cases op with
  | setDriver | begin =>
    subst h
    exact trivial
  | connect row col | disconnect row col | setLevel row col =>
    have hcol : col ≠ c := ne_of_beq_false hop
    rcases h with rfl | rfl | rfl
    · exact hcol
    · exact hcol
    · exact trivial
  | exclusiveInput col =>
    subst h
    exact ne_of_beq_false hop
  | update =>
    rcases h with ⟨r, c', rfl⟩ | rfl <;> exact trivial
  | clearAll | lockRows => cases hop

namespace TableXPoint
variable {a b : TableXPoint} {c : UInt8} {op : Op} {millis millis' : Clock} {linked : Prop}

theorem columnCalls_drive {calls : List DriverCall} (h : columnCalls c calls = []) :
    columnCalls c (a.drive calls) = [] := by
  unfold drive
  split
  · exact h
  · rfl

/-- No pulse is in flight, nor ever will be. -/
structure Pulseless (a : TableXPoint) : Prop where
  type : a.type = .nonLatching
  idle : a.pulses.Idle

theorem Pulseless.step (h : Pulseless a) (i : Op × Clock) : Pulseless (a.step i).1 where
  type := (step_type h.idle.distinct i).trans h.type
  idle := (step_pulses h.idle.distinct h.type).symm ▸ h.idle

/-- The same tables as far as column `c` goes. One of the two may lack a pool when there is nothing to keep in it. -/
structure SameColumn (c : UInt8) (a b : TableXPoint) : Prop where
  rows : a.rows = b.rows
  cols : a.cols = b.cols
  valid : a.valid = b.valid ∨ a.rows = 0 ∧ a.cols = 0
  conn : ∀ r, a.conn r c = b.conn r c
  lock : a.lock = b.lock
  excl : a.excl c = b.excl c

namespace SameColumn

theorem symm (h : SameColumn c a b) : SameColumn c b a :=
  ⟨h.rows.symm, h.cols.symm, by
    rw [← h.rows, ← h.cols]
    exact h.valid.imp_left Eq.symm, fun r => (h.conn r).symm, h.lock.symm, h.excl.symm⟩

theorem setConn (h : SameColumn c a b) (r₀ c₀ : UInt8) (on : Bool) :
    SameColumn c (a.setConn r₀ c₀ on) (b.setConn r₀ c₀ on) :=
  ⟨h.rows, h.cols, h.valid, fun r => by simp only [TableXPoint.setConn, setEntry, h.conn], h.lock, h.excl⟩

theorem setConn_other (h : SameColumn c a b) {r₀ c₀ : UInt8} {on : Bool} (hc : c₀ ≠ c) :
    SameColumn c (a.setConn r₀ c₀ on) b :=
  ⟨h.rows, h.cols, h.valid, fun r => (setEntry_ne fun heq => hc heq.2.symm).trans (h.conn r), h.lock, h.excl⟩

theorem setPulses (h : SameColumn c a b) (pulses : PulseTable) : SameColumn c (a.setPulses pulses) b :=
  ⟨h.rows, h.cols, h.valid, h.conn, h.lock, h.excl⟩

/-- The guard of an operation on a node of the column. -/
theorem outside (h : SameColumn c a b) (r : UInt8) :
    (!a.valid || decide (r ≥ a.rows) || decide (c ≥ a.cols)) =
    (!b.valid || decide (r ≥ b.rows) || decide (c ≥ b.cols)) := by
  rw [← h.rows, ← h.cols, Bool.or_assoc, Bool.or_assoc]
  exact guard_congr h.valid fun hz => by simp [hz.1]

theorem blocked (h : SameColumn c a b) (ha : Pulseless a) (hb : Pulseless b) (r : UInt8) :
    a.blocked r c = b.blocked r c := by
  simp only [TableXPoint.blocked, interlocked, exclusiveTaken, occupied, h.rows, h.lock, h.excl, h.conn, ha.idle.pending,
    hb.idle.pending]

end SameColumn

/-- An event elsewhere. -/
theorem Does.sameColumn {e : Event} {a' : TableXPoint} (h : Does a e a') (he : e.avoids c) (hs : SameColumn c a b) :
    SameColumn c a' b := by
  cases h with
  | switch | level | skip => exact hs.setConn_other he
  | pulse | repulse => exact (hs.setConn_other he).setPulses _
  | release => exact hs.setPulses _
  | lock => exact he.elim
  | exclude => exact ⟨hs.rows, hs.cols, hs.valid, hs.conn, hs.lock, (if_neg (Ne.symm he)).trans hs.excl⟩
  | attach => exact ⟨hs.rows, hs.cols, hs.valid, hs.conn, hs.lock, hs.excl⟩
  | _ => exact hs

/-- An operation that is not relevant to the column changes nothing in it. -/
theorem step_elsewhere (ha : Pulseless a) (h : SameColumn c a b) (hop : op.concerns c = false) (millis : Clock) :
    SameColumn c (a.step (op, millis)).1 b ∧ columnCalls c (a.step (op, millis)).2.calls = [] := by
  obtain ⟨es, hes⟩ := step_events ha.idle.distinct (op, millis)
  have havoids : ∀ e ∈ es, e.avoids c := fun e he => Op.emits_avoids hop (hes.emits e he)
  refine ⟨hes.steps.inv (I := fun s => SameColumn c s b) (fun s e t hs he hdo => hdo.sameColumn (havoids e he) hs) h, ?_⟩
  rw [hes.calls]
  refine columnCalls_drive ?_
  rw [columnCalls, List.filter_flatMap]
  exact List.flatMap_eq_nil_iff.mpr fun e he => Event.columnCalls_avoids (havoids e he)

/-! ### An operation in both runs -/

/-- Two steps that look alike in column `c`, at the driver only if the two matrices are `linked` to the same. -/
structure Alike (linked : Prop) (c : UInt8) (s t : TableXPoint × Reply) : Prop where
  same : SameColumn c s.1 t.1
  ret : s.2.ret = t.2.ret
  calls : linked → columnCalls c s.2.calls = columnCalls c t.2.calls

theorem SameColumn.answer (h : SameColumn c a b) (ret : Option Bool) : Alike linked c (a, ⟨ret, []⟩) (b, ⟨ret, []⟩) :=
  ⟨h, rfl, fun _ => rfl⟩

section Both
variable (h : SameColumn c a b) (ha : Pulseless a) (hb : Pulseless b)
include h

theorem drive_alike (ret : Option Bool) (calls : List DriverCall) :
    Alike (a.drv = b.drv) c (a, ⟨ret, a.drive calls⟩) (b, ⟨ret, b.drive calls⟩) :=
  ⟨h, rfl, fun hdrv => by rw [drive, drive, hdrv]⟩

include ha hb

theorem switchNode_alike (r : UInt8) (on : Bool) :
    Alike (a.drv = b.drv) c (a.switchNode millis r c on) (b.switchNode millis' r c on) := by
  rw [switchNode, switchNode, ha.type, hb.type]
  exact drive_alike (h.setConn r c on) _ _

theorem connect_alike (r : UInt8) : Alike (a.drv = b.drv) c (a.connect millis r c) (b.connect millis' r c) := by
  refine ite_rel (h.outside r) (h.answer _) fun _ => ?_
  refine ite_rel (h.blocked ha hb r) (h.answer _) fun _ => ?_
  exact ite_rel (h.conn r) (h.answer _) fun _ => switchNode_alike h ha hb r true

theorem disconnect_alike (r : UInt8) : Alike (a.drv = b.drv) c (a.disconnect millis r c) (b.disconnect millis' r c) := by
  refine ite_rel (h.outside r) (h.answer _) fun _ => ?_
  exact ite_rel (congrArg not (h.conn r)) (h.answer _) fun _ => switchNode_alike h ha hb r false

theorem setLevel_alike (r : UInt8) (level : UInt16) :
    Alike (a.drv = b.drv) c (a.setLevel millis r c level) (b.setLevel millis' r c level) := by
  rw [setLevel, setLevel, ha.type, hb.type]
  refine ite_rel (h.outside r) (h.answer _) fun _ => ?_
  exact ite_rel (congrArg _ (h.blocked ha hb r)) (h.answer _) fun _ => drive_alike (h.setConn r c _) _ _

end Both

theorem exclusiveInput_alike (h : SameColumn c a b) : Alike linked c (a.exclusiveInput c) (b.exclusiveInput c) := by
  have hexcl : (a.setExcl c).excl c = (b.setExcl c).excl c := by simp [setExcl]
  refine ite_rel ?_ (h.answer _) fun _ => ⟨⟨h.rows, h.cols, h.valid, h.conn, h.lock, hexcl⟩, rfl, fun _ => rfl⟩
  rw [← h.cols]
  exact guard_congr h.valid fun hz => by simp [hz.2]

theorem lockRows_alike (h : SameColumn c a b) (rowA rowB : UInt8) :
    Alike linked c (a.lockRows rowA rowB) (b.lockRows rowA rowB) := by
  have hlock : ((a.setLock rowA rowB).setLock rowB rowA).lock = ((b.setLock rowA rowB).setLock rowB rowA).lock := by
    simp only [setLock, h.lock]
  refine ite_rel ?_ (h.answer _) fun _ => ⟨⟨h.rows, h.cols, h.valid, h.conn, hlock, h.excl⟩, rfl, fun _ => rfl⟩
  rw [← h.rows, Bool.or_assoc, Bool.or_assoc]
  exact guard_congr h.valid fun hz => by simp [hz.1]

/-! ### `clearAll` in both runs -/

/-- The sweep of `clearAll` at one moment of two runs: the tables, and the calls so far on the drivers of `a` and `b`. -/
structure Swept (a b : TableXPoint) (c : UInt8) (s t : TableXPoint × List DriverCall) : Prop where
  same : SameColumn c s.1 t.1
  types : s.1.type = .nonLatching ∧ t.1.type = .nonLatching
  drvs : s.1.drv = a.drv ∧ t.1.drv = b.drv
  calls : a.drv = b.drv → columnCalls c s.2 = columnCalls c t.2

namespace Swept
variable {s t : TableXPoint × List DriverCall} {now now' : UInt32} {r col : UInt8}

theorem symm (h : Swept a b c s t) : Swept b a c t s :=
  ⟨h.same.symm, h.types.symm, h.drvs.symm, fun hdrv => (h.calls hdrv.symm).symm⟩

/-- A turn of one run in another column. -/
theorem turn_elsewhere (h : Swept a b c s t) (hcol : col ≠ c) : Swept a b c (clearNode now r col s) t := by
  cases hconn : s.1.conn r col with
  | false =>
    rw [clearNode_off hconn]
    exact h
  | true =>
    rw [clearNode_nonLatching hconn h.types.1]
    refine ⟨h.same.setConn_other hcol, h.types, h.drvs, fun hdrv => ?_⟩
    have hcall : columnCalls c [.setNodeHardware r col false] = [] :=
      Event.columnCalls_avoids (e := .switch r col false) hcol
    rw [columnCalls, List.filter_append]
    exact (congrArg (_ ++ ·) (columnCalls_drive hcall)).trans ((List.append_nil _).trans (h.calls hdrv))

theorem turn (h : Swept a b c s t) : Swept a b c (clearNode now r col s) (clearNode now' r col t) := by
  by_cases hcol : col = c
  · subst hcol
    cases hconn : s.1.conn r col with
    | false =>
      rw [clearNode_off hconn, clearNode_off ((h.same.conn r).symm.trans hconn)]
      exact h
    | true =>
      rw [clearNode_nonLatching hconn h.types.1, clearNode_nonLatching ((h.same.conn r).symm.trans hconn) h.types.2]
      refine ⟨h.same.setConn r col false, h.types, h.drvs, fun hdrv => ?_⟩
      rw [columnCalls, columnCalls, List.filter_append, List.filter_append, drive, drive, h.drvs.1, h.drvs.2, hdrv]
      exact congrArg (· ++ _) (h.calls hdrv)
  · exact (h.turn_elsewhere hcol).symm.turn_elsewhere hcol |>.symm

end Swept

theorem columnCalls_no_rows (hr : a.rows = 0) : columnCalls c (a.clearAll millis).2.calls = [] := by
  unfold clearAll
  rw [hr]
  split
  · rfl
  · exact columnCalls_drive rfl

theorem clearAll_alike (h : SameColumn c a b) (ha : Pulseless a) (hb : Pulseless b) :
    Alike (a.drv = b.drv) c (a.clearAll millis) (b.clearAll millis') := by
  rcases h.valid with hv | ⟨hr, -⟩
  · unfold clearAll
    rw [hv, ← h.rows, ← h.cols]
    refine ite_rel rfl (h.answer _) fun _ => ?_
    have hsweep : ∀ now now', Swept a b c
        ((below a.rows).foldl (fun s r => (below a.cols).foldl (fun s col => clearNode now r col s) s) (a, []))
        ((below a.rows).foldl (fun s r => (below a.cols).foldl (fun s col => clearNode now' r col s) s) (b, [])) := by
      intro now now'
      exact List.foldl_rel ⟨h, ⟨ha.type, hb.type⟩, ⟨rfl, rfl⟩, fun _ => rfl⟩ fun _ _ _ _ hs =>
        List.foldl_rel hs fun _ _ _ _ hs => hs.turn
    refine ⟨(hsweep _ _).same, rfl, fun hdrv => ?_⟩
    rw [columnCalls, columnCalls, List.filter_append, List.filter_append, drive, drive, hdrv]
    exact congrArg (· ++ _) ((hsweep _ _).calls hdrv)
  · have hr' := h.rows.symm.trans hr
    refine ⟨?_, clearAll_ret.trans clearAll_ret.symm, fun _ => (columnCalls_no_rows hr).trans
      (columnCalls_no_rows hr').symm⟩
    rw [clearAll_no_rows hr, clearAll_no_rows hr']
    exact h

/-- An operation that is relevant to the column, in both runs. -/
theorem step_alike (h : SameColumn c a b) (ha : Pulseless a) (hb : Pulseless b) (millis millis' : Clock)
    (hop : op.concerns c = true) : Alike (a.drv = b.drv) c (a.step (op, millis)) (b.step (op, millis')) := by
  cases op with
  | connect row col =>
    obtain rfl : col = c := eq_of_beq hop
    exact connect_alike h ha hb row
  | disconnect row col =>
    obtain rfl : col = c := eq_of_beq hop
    exact disconnect_alike h ha hb row
  | setLevel row col level =>
    obtain rfl : col = c := eq_of_beq hop
    exact setLevel_alike h ha hb row level
  | exclusiveInput col =>
    obtain rfl : col = c := eq_of_beq hop
    exact exclusiveInput_alike h
  | lockRows rowA rowB => exact lockRows_alike h rowA rowB
  | clearAll => exact clearAll_alike h ha hb
  | _ => cases hop

end TableXPoint

namespace XPoint
open TableXPoint
variable {x y : XPoint} {c : UInt8} {op : Op} {rows cols : UInt8} {pdur pdur' : UInt16} {ops ops' : List (Op × Clock)}

/-- Two non-latching matrices that are the same as far as column `c` goes. -/
structure Parallel (c : UInt8) (x y : XPoint) : Prop where
  wellFormed : x.WellFormed ∧ y.WellFormed
  pulseless : x.tables.Pulseless ∧ y.tables.Pulseless
  same : SameColumn c x.tables y.tables

namespace Parallel

theorem symm (h : Parallel c x y) : Parallel c y x := ⟨h.wellFormed.symm, h.pulseless.symm, h.same.symm⟩

theorem elsewhere (h : Parallel c x y) (hop : op.concerns c = false) (millis : Clock) : ∃ x' rep,
    x.step (op, millis) = some (x', rep) ∧ Parallel c x' y ∧ columnCalls c rep.calls = [] ∧
      (op.attaches = false → x'.drv = x.drv) := by
  obtain ⟨x', rep, hstep, hwf, ht⟩ := step_matches h.wellFormed.1 (op, millis)
  obtain ⟨es, hes⟩ := step_events h.pulseless.1.idle.distinct (op, millis)
  have hdrv := hes.drv
  have hpulse := h.pulseless.1.step (op, millis)
  obtain ⟨hsame, hcalls⟩ := step_elsewhere h.pulseless.1 h.same hop millis
  rw [ht] at hdrv hpulse hsame hcalls
  refine ⟨x', rep, hstep, ⟨⟨hwf, h.wellFormed.2⟩, ⟨hpulse, h.pulseless.2⟩, hsame⟩, hcalls,
    fun hno => hdrv fun drv heq => ?_⟩
  subst heq
  cases hno

theorem both (h : Parallel c x y) (hop : op.concerns c = true) (millis millis' : Clock) : ∃ x' rep y' rep',
    x.step (op, millis) = some (x', rep) ∧ y.step (op, millis') = some (y', rep') ∧ Parallel c x' y' ∧
      rep.ret = rep'.ret ∧ (x.drv = y.drv → columnCalls c rep.calls = columnCalls c rep'.calls ∧ x'.drv = y'.drv) := by
  obtain ⟨x', rep, hstep, hwf, ht⟩ := step_matches h.wellFormed.1 (op, millis)
  obtain ⟨y', rep', hstep', hwf', ht'⟩ := step_matches h.wellFormed.2 (op, millis')
  obtain ⟨es, hes⟩ := step_events h.pulseless.1.idle.distinct (op, millis)
  obtain ⟨es', hes'⟩ := step_events h.pulseless.2.idle.distinct (op, millis')
  have hattach : ∀ drv, op ≠ .setDriver drv := fun drv heq => by
    subst heq
    cases hop
  have hdrv := hes.drv hattach
  have hdrv' := hes'.drv hattach
  have hpulse := h.pulseless.1.step (op, millis)
  have hpulse' := h.pulseless.2.step (op, millis')
  have halike := step_alike h.same h.pulseless.1 h.pulseless.2 millis millis' hop
  rw [ht] at hdrv hpulse halike
  rw [ht'] at hdrv' hpulse' halike
  exact ⟨x', rep, y', rep', hstep, hstep', ⟨⟨hwf, hwf'⟩, ⟨hpulse, hpulse'⟩, halike.same⟩, halike.ret,
    fun hlink => ⟨halike.calls hlink, hdrv.trans (hlink.trans hdrv'.symm)⟩⟩

theorem built (hx : Built rows cols .nonLatching pdur x) (hy : Built rows cols .nonLatching pdur' y) : Parallel c x y := by
  obtain ⟨hwf, ht⟩ := hx.spec
  obtain ⟨hwf', ht'⟩ := hy.spec
  refine ⟨⟨hwf, hwf'⟩, ?_, ?_⟩
  · rw [ht, ht']
    exact ⟨⟨rfl, PulseTable.idle_init⟩, ⟨rfl, PulseTable.idle_init⟩⟩
  · rw [ht, ht']
    exact ⟨rfl, rfl, hx.same_valid hy, fun _ => rfl, rfl, rfl⟩

end Parallel

/-- The results and the bits of a column, for an observer who sees the operations relevant to it. -/
theorem unwinding_results : Machine.Unwinding step (Parallel c) (fun i => Option.guard (Op.concerns c) i.1)
    (fun e => if e.1.1.concerns c then [e.2.ret] else []) where
  symm _ _ h := h.symm
  hidden x y i h hi := by
    obtain ⟨op, millis⟩ := i
    have hop : op.concerns c = false := by simpa using hi
    obtain ⟨x', rep, hstep, hpar, -, -⟩ := h.elsewhere hop millis
    exact ⟨x', rep, hstep, hpar, if_neg (Bool.eq_false_iff.mp hop)⟩
  seen x y i j k h hi hj := by
    obtain ⟨op, millis⟩ := i
    obtain ⟨op', millis'⟩ := j
    obtain rfl : op' = k := (Option.guard_eq_some_iff.mp hj).1
    obtain ⟨rfl, hop⟩ : op = op' ∧ op.concerns c = true := Option.guard_eq_some_iff.mp hi
    obtain ⟨x', rep, y', rep', hstep, hstep', hpar, hret, -⟩ := h.both hop millis millis'
    refine ⟨x', rep, y', rep', hstep, hstep', hpar, ?_⟩
    dsimp only
    rw [if_pos hop, if_pos hop, hret]

/-- The calls on the driver, for an observer who sees also which driver is attached. -/
theorem unwinding_calls : Machine.Unwinding step (fun x y => Parallel c x y ∧ x.drv = y.drv)
    (fun i => Option.guard (fun op => op.concerns c || op.attaches) i.1) (fun e => columnCalls c e.2.calls) where
  symm _ _ h := ⟨h.1.symm, h.2.symm⟩
  hidden x y i h hi := by
    obtain ⟨op, millis⟩ := i
    have hop : op.concerns c = false ∧ op.attaches = false := by simpa using hi
    obtain ⟨x', rep, hstep, hpar, hcalls, hdrv⟩ := h.1.elsewhere hop.1 millis
    exact ⟨x', rep, hstep, ⟨hpar, (hdrv hop.2).trans h.2⟩, hcalls⟩
  seen x y i j k h hi hj := by
    obtain ⟨op, millis⟩ := i
    obtain ⟨op', millis'⟩ := j
    obtain rfl : op' = k := (Option.guard_eq_some_iff.mp hj).1
    obtain ⟨rfl, hop⟩ : op = op' ∧ (op.concerns c || op.attaches) = true := Option.guard_eq_some_iff.mp hi
    cases hc : op.concerns c with
    | true =>
      obtain ⟨x', rep, y', rep', hstep, hstep', hpar, -, hlink⟩ := h.1.both hc millis millis'
      exact ⟨x', rep, y', rep', hstep, hstep', ⟨hpar, (hlink h.2).2⟩, (hlink h.2).1⟩
    | false =>
      -- What is left is `setDriver`, with the same driver in both runs.
      cases op with
      | setDriver drv =>
        obtain ⟨x', rep, hstep, hpar, hcalls, -⟩ := h.1.elsewhere hc millis
        obtain ⟨y', rep', hstep', hpar', hcalls', -⟩ := hpar.symm.elsewhere hc millis'
        obtain ⟨rfl, rfl⟩ := Prod.mk.inj (Option.some.inj hstep)
        obtain ⟨rfl, rfl⟩ := Prod.mk.inj (Option.some.inj hstep')
        exact ⟨_, _, _, _, rfl, rfl, ⟨hpar'.symm, rfl⟩, rfl⟩
      | _ => simp [hc, Op.attaches] at hop

/-- Two runs of non-latching matrices of one size, with the same operations relevant to column `c`: these return
    the same results, the bits of the column are the same after every two prefixes with the same operations relevant
    to it, and if the drivers are attached at the same points, the column is driven by the same calls. -/
theorem columns_isolated (hx : Built rows cols .nonLatching pdur x) (hy : Built rows cols .nonLatching pdur' y)
    (hops : selected (Op.concerns c) ops = selected (Op.concerns c) ops') : ∃ x' log y' log',
      x.run ops = some (x', log) ∧ y.run ops' = some (y', log') ∧ returns c log = returns c log' ∧
      (∀ pre post pre' post' u v l l', ops = pre ++ post → ops' = pre' ++ post' →
        selected (Op.concerns c) pre = selected (Op.concerns c) pre' → x.run pre = some (u, l) → y.run pre' = some (v, l') →
          ∀ r, u.tables.conn r c = v.tables.conn r c) ∧
      (selected (fun op => op.concerns c || op.attaches) ops = selected (fun op => op.concerns c || op.attaches) ops' →
        columnCalls c (driverCalls log) = columnCalls c (driverCalls log')) := by
  have hpar : Parallel c x y := .built hx hy
  obtain ⟨x', log, y', log', hrun, hrun', -, hreturns⟩ := unwinding_results.runs_agree hpar hops
  refine ⟨x', log, y', log', hrun, hrun', hreturns, fun pre post pre' post' u v l l' _ _ hsel hu hv r => ?_, fun hsel => ?_⟩
  · obtain ⟨u', l₁, v', l₂, hu', hv', hpar', -⟩ := unwinding_results.runs_agree hpar hsel
    obtain ⟨rfl, -⟩ := Prod.mk.inj (Option.some.inj (hu'.symm.trans hu))
    obtain ⟨rfl, -⟩ := Prod.mk.inj (Option.some.inj (hv'.symm.trans hv))
    exact hpar'.same.conn r
  · have hdrv : x.drv = y.drv := by
      have hx : x.drv = none := congrArg TableXPoint.drv hx.spec.2
      have hy : y.drv = none := congrArg TableXPoint.drv hy.spec.2
      rw [hx, hy]
    obtain ⟨u, l, v, l', hu, hv, -, hcalls⟩ := unwinding_calls.runs_agree ⟨hpar, hdrv⟩ hsel
    obtain ⟨-, rfl⟩ := Prod.mk.inj (Option.some.inj (hu.symm.trans hrun))
    obtain ⟨-, rfl⟩ := Prod.mk.inj (Option.some.inj (hv.symm.trans hrun'))
    rw [columnCalls, columnCalls, driverCalls, driverCalls, List.filter_flatMap, List.filter_flatMap]
    exact hcalls

theorem columns_isolated_three_by_two :
    let ops : List (Op × Clock) :=
      [(.setDriver (some 0), fun _ => 0), (.connect 0 1, fun _ => 0), (.connect 1 0, fun _ => 0)]
    let ops' : List (Op × Clock) :=
      [(.setDriver (some 0), fun _ => 0), (.connect 1 0, fun _ => 7), (.exclusiveInput 1, fun _ => 9)]
    ∃ x y, heap 3 2 .nonLatching 0 = some x ∧ heap 3 2 .nonLatching 0 = some y ∧
      ∃ x' log y' log', x.run ops = some (x', log) ∧ y.run ops' = some (y', log') ∧ returns 0 log = returns 0 log' ∧
        (∀ r, x'.tables.conn r 0 = y'.tables.conn r 0) ∧
          columnCalls 0 (driverCalls log) = columnCalls 0 (driverCalls log') := by
  intro ops ops'
  obtain ⟨x, hx⟩ := (exists_built 3 2 .nonLatching 0).1
  have hops : selected (Op.concerns 0) ops = selected (Op.concerns 0) ops' := by decide
  obtain ⟨x', log, y', log', hrun, hrun', hreturns, hbits, hcalls⟩ := columns_isolated (.heap hx) (.heap hx) hops
  have hend := hbits ops [] ops' [] x' y' log log' rfl rfl hops hrun hrun'
  exact ⟨x, x, hx, hx, x', log, y', log', hrun, hrun', hreturns, hend, hcalls (by decide)⟩

end XPoint

end Crosspoint
