import Crosspoint.Theorems.Interlock

/-! A latching matrix whose pulses have all run out before every call answers as a non-latching one. The two
    keep the same tables; what a latching matrix may refuse or skip needs a pulse in flight. -/

namespace Crosspoint
open Loops PulseTable

namespace TableXPoint
variable {a b d : TableXPoint} {row col r c : UInt8} {on : Bool} {millis millis' : Clock}

/-- The same tables, whatever the relays, the drivers and the pulses. One of the two may lack a pool when
    there is nothing to keep in it. -/
structure Agrees (a b : TableXPoint) : Prop where
  rows : a.rows = b.rows
  cols : a.cols = b.cols
  conn : a.conn = b.conn
  lock : a.lock = b.lock
  excl : a.excl = b.excl
  valid : a.valid = b.valid ∨ a.rows = 0 ∧ a.cols = 0

/-- Two steps to the same tables with the same result. -/
def Answers (s t : TableXPoint × Reply) : Prop := Agrees s.1 t.1 ∧ s.2.ret = t.2.ret

namespace Agrees

theorem refl (a : TableXPoint) : Agrees a a := ⟨rfl, rfl, rfl, rfl, rfl, .inl rfl⟩

theorem symm (h : Agrees a b) : Agrees b a :=
  ⟨h.rows.symm, h.cols.symm, h.conn.symm, h.lock.symm, h.excl.symm, by
    rw [← h.rows, ← h.cols]
    exact h.valid.imp_left Eq.symm⟩

theorem trans (h : Agrees a b) (h' : Agrees b d) : Agrees a d :=
  ⟨h.rows.trans h'.rows, h.cols.trans h'.cols, h.conn.trans h'.conn, h.lock.trans h'.lock, h.excl.trans h'.excl, by
    rcases h.valid with hv | hz
    · rw [hv, h.rows, h.cols]
      exact h'.valid
    · exact .inr hz⟩

theorem setConn (h : Agrees a b) (r c : UInt8) (v : Bool) : Agrees (a.setConn r c v) (b.setConn r c v) where
  rows := h.rows
  cols := h.cols
  conn := congrArg (fun t => setEntry t r c v) h.conn
  lock := h.lock
  excl := h.excl
  valid := h.valid

theorem clearNode_self {now : UInt32} {s : TableXPoint × List DriverCall} :
    Agrees (clearNode now r c s).1 (s.1.setConn r c false) := by
  unfold TableXPoint.clearNode
  dsimp only
  split
  · rename_i hc
    exact ⟨rfl, rfl, (setEntry_same (by simpa using hc)).symm, rfl, rfl, .inl rfl⟩
  · cases s.1.type with
    | nonLatching => exact refl _
    | latchingDualCoil =>
      rcases s.1.pulses.reclaim r c with ⟨pulses, _ | slot⟩ <;> exact ⟨rfl, rfl, rfl, rfl, rfl, .inl rfl⟩

theorem clearNode {now now' : UInt32} {s t : TableXPoint × List DriverCall} (h : Agrees s.1 t.1) :
    Agrees (TableXPoint.clearNode now r c s).1 (TableXPoint.clearNode now' r c t).1 :=
  clearNode_self.trans ((h.setConn r c false).trans clearNode_self.symm)

theorem setLock (h : Agrees a b) (r s : UInt8) : Agrees (a.setLock r s) (b.setLock r s) where
  rows := h.rows
  cols := h.cols
  conn := h.conn
  lock := congrArg (fun t => setEntry t r s true) h.lock
  excl := h.excl
  valid := h.valid

theorem setExcl (h : Agrees a b) (col : UInt8) : Agrees (a.setExcl col) (b.setExcl col) where
  rows := h.rows
  cols := h.cols
  conn := h.conn
  lock := h.lock
  excl := by rw [TableXPoint.setExcl, TableXPoint.setExcl, h.excl]
  valid := h.valid

theorem outside (h : Agrees a b) : (!a.valid || decide (row ≥ a.rows) || decide (col ≥ a.cols)) =
    (!b.valid || decide (row ≥ b.rows) || decide (col ≥ b.cols)) := by
  rw [← h.rows, ← h.cols, Bool.or_assoc, Bool.or_assoc]
  exact guard_congr h.valid fun hz => by simp [hz.1]

theorem blocked (h : Agrees a b) (ha : a.pulses.Idle) (hb : b.pulses.Idle) : a.blocked row col = b.blocked row col := by
  simp only [TableXPoint.blocked, interlocked, exclusiveTaken, occupied, ha.pending, hb.pending, h.rows, h.conn, h.lock,
    h.excl]

end Agrees

/-- The tables `a` of a latching matrix and `b` of a non-latching one. -/
structure Simulates (a b : TableXPoint) : Prop where
  agrees : Agrees a b
  latching : a.type = .latchingDualCoil
  nonLatching : b.type = .nonLatching
  distinct : a.pulses.Distinct
  idle : b.pulses.Idle

namespace Simulates

/-- With every slot free, a latching matrix switches as a non-latching one does. -/
theorem switch (h : Simulates a b) (ha : a.pulses.Idle) (calls : List DriverCall) :
    Answers (a.switchNode millis row col on) (b.setConn row col on, ⟨some true, calls⟩) := by
  obtain ⟨i, hi⟩ := ha.alloc (r := row) (c := col)
  rw [TableXPoint.switchNode, h.latching, hi]
  have hs := h.agrees.setConn row col on
  exact ⟨⟨hs.rows, hs.cols, hs.conn, hs.lock, hs.excl, hs.valid⟩, rfl⟩

theorem switchNode (h : Simulates a b) (ha : a.pulses.Idle) :
    Answers (a.switchNode millis row col on) (b.switchNode millis' row col on) := by
  rw [TableXPoint.switchNode.eq_def b, h.nonLatching]
  exact h.switch ha _

theorem connect (h : Simulates a b) (ha : a.pulses.Idle) :
    Answers (a.connect millis row col) (b.connect millis' row col) := by
  refine ite_rel h.agrees.outside ⟨h.agrees, rfl⟩ fun _ => ?_
  refine ite_rel (h.agrees.blocked ha h.idle) ⟨h.agrees, rfl⟩ fun _ => ?_
  exact ite_rel (by rw [h.agrees.conn]) ⟨h.agrees, rfl⟩ fun _ => h.switchNode ha

theorem disconnect (h : Simulates a b) (ha : a.pulses.Idle) :
    Answers (a.disconnect millis row col) (b.disconnect millis' row col) := by
  refine ite_rel h.agrees.outside ⟨h.agrees, rfl⟩ fun _ => ?_
  exact ite_rel (by rw [h.agrees.conn]) ⟨h.agrees, rfl⟩ fun _ => h.switchNode ha

theorem setLevel (h : Simulates a b) (ha : a.pulses.Idle) {level : UInt16} :
    Answers (a.setLevel millis row col level) (b.setLevel millis' row col level) := by
  refine ite_rel h.agrees.outside ⟨h.agrees, rfl⟩ fun _ => ?_
  refine ite_rel (by rw [h.agrees.blocked ha h.idle]) ⟨h.agrees, rfl⟩ fun _ => ?_
  rw [h.latching, h.nonLatching]
  dsimp only
  split
  · rename_i heq
    -- The latching matrix has the bit already; the non-latching one writes it again.
    have hs := h.agrees.setConn row col (decide (level > 0))
    have hsame : a.conn = (b.setConn row col (decide (level > 0))).conn := by
      rw [← hs.conn]
      exact (setEntry_same (by simpa using heq)).symm
    exact ⟨⟨hs.rows, hs.cols, hsame, hs.lock, hs.excl, hs.valid⟩, rfl⟩
  · exact h.switch ha _

theorem clearAll (h : Simulates a b) : Answers (a.clearAll millis) (b.clearAll millis') := by
  refine ⟨?_, clearAll_ret.trans clearAll_ret.symm⟩
  rcases h.agrees.valid with hv | ⟨hr, -⟩
  · unfold TableXPoint.clearAll
    rw [← hv, ← h.agrees.rows, ← h.agrees.cols]
    split
    · exact h.agrees
    · exact List.foldl_rel (r := fun (s t : TableXPoint × List DriverCall) => Agrees s.1 t.1) h.agrees
        fun _ _ _ _ hst => List.foldl_rel (r := fun (s t : TableXPoint × List DriverCall) => Agrees s.1 t.1) hst
          fun _ _ _ _ hst => hst.clearNode
  · -- Without rows there is nothing to clear, whether there is a pool or not.
    rw [clearAll_no_rows hr, clearAll_no_rows (h.agrees.rows.symm.trans hr)]
    exact h.agrees

theorem lockRows (h : Simulates a b) : Answers (a.lockRows row r) (b.lockRows row r) := by
  refine ite_rel ?_ ⟨h.agrees, rfl⟩ fun _ => ⟨(h.agrees.setLock row r).setLock r row, rfl⟩
  rw [← h.agrees.rows, Bool.or_assoc, Bool.or_assoc]
  exact guard_congr h.agrees.valid fun hz => by simp [hz.1]

theorem exclusiveInput (h : Simulates a b) : Answers (a.exclusiveInput col) (b.exclusiveInput col) := by
  refine ite_rel ?_ ⟨h.agrees, rfl⟩ fun _ => ⟨h.agrees.setExcl col, rfl⟩
  rw [← h.agrees.cols]
  exact guard_congr h.agrees.valid fun hz => by simp [hz.2]

theorem step (h : Simulates a b) (ha : a.pulses.Idle) {op : Op} (hop : op.Addresses) :
    Answers (a.step (op, millis)) (b.step (op, millis')) := by
  cases op with
  | connect row col => exact h.connect ha
  | disconnect row col => exact h.disconnect ha
  | setLevel row col level => exact h.setLevel ha
  | clearAll => exact h.clearAll
  | lockRows rowA rowB => exact h.lockRows
  | exclusiveInput col => exact h.exclusiveInput
  | _ => exact absurd hop id

theorem step_simulates (h : Simulates a b) (ha : a.pulses.Idle) {op : Op} (hop : op.Addresses) :
    Simulates (a.step (op, millis)).1 (b.step (op, millis')).1 where
  agrees := (h.step ha hop).1
  latching := (step_type h.distinct _).trans h.latching
  nonLatching := (step_type h.idle.distinct _).trans h.nonLatching
  distinct := step_distinct h.distinct _
  idle := by
    rw [step_pulses h.idle.distinct h.nonLatching]
    exact h.idle

theorem update (h : Simulates a b)
    (hdue : ∀ i : Fin MAX_PULSES, (a.pulses.get i).on = true → due (millis 0) a.pdur (a.pulses.get i) = true) :
    Simulates (a.step (.update, millis)).1 b ∧ (a.step (.update, millis)).1.pulses.Idle := by
  have hidle : (a.update millis).1.pulses.Idle ∧ Agrees (a.update millis).1 a := by
    have hexpire := expire_idle hdue
    unfold TableXPoint.update
    rw [h.latching]
    generalize a.pulses.expire (millis 0) a.pdur = s at hexpire ⊢
    obtain ⟨pulses, released⟩ := s
    exact ⟨hexpire, ⟨rfl, rfl, rfl, rfl, rfl, .inl rfl⟩⟩
  exact ⟨⟨hidle.2.trans h.agrees, (step_type h.distinct _).trans h.latching, h.nonLatching,
    step_distinct h.distinct _, h.idle⟩, hidle.1⟩

end Simulates

/-- An `update` comes at a clock reading at which every active pulse is due. -/
def Quiet (a : TableXPoint) (i : Op × Clock) : Prop :=
  i.1 = .update → ∀ j : Fin MAX_PULSES, (a.pulses.get j).on = true → due (i.2 0) a.pdur (a.pulses.get j) = true

instance (a : TableXPoint) (i : Op × Clock) : Decidable (a.Quiet i) := inferInstanceAs (Decidable (_ → _))

end TableXPoint

/-- A call to both matrices: the clock of the `update` before it on the latching one, the operation, and the
    clocks of the operation on either. -/
structure QuietCall where
  updated : Clock
  op : Op
  latching : Clock
  nonLatching : Clock

/-- What the latching matrix is told. -/
def QuietCall.withUpdate (k : QuietCall) : List (Op × Clock) := [(.update, k.updated), (k.op, k.latching)]

/-- What the non-latching matrix is told. -/
def QuietCall.plain (k : QuietCall) : Op × Clock := (k.op, k.nonLatching)

/-- The results of the operations but `update`. -/
def results (log : List ((Op × Clock) × Reply)) : List (Option Bool) :=
  (log.filter fun e => e.1.1 != .update).map fun e => e.2.ret

section Results
variable {log : List ((Op × Clock) × Reply)} {op : Op} {t : Clock} {rep : Reply}

theorem results_update : results (((.update, t), rep) :: log) = results log := rfl

theorem results_cons (h : op.Addresses) : results (((op, t), rep) :: log) = rep.ret :: results log := by
  cases op with
  | update => exact absurd h id
  | _ => rfl

end Results

namespace XPoint
variable {x y : XPoint} {rows cols : UInt8} {pdur pdur' : UInt16} {calls : List QuietCall}

theorem simulates_run (hx : x.WellFormed) (hy : y.WellFormed) (h : x.tables.Simulates y.tables)
    (hcalls : ∀ k ∈ calls, k.op.Addresses)
    (hquiet : Machine.Along step (fun x i => x.tables.Quiet i) x (calls.flatMap QuietCall.withUpdate)) :
    ∃ x' y' logx logy, x.run (calls.flatMap QuietCall.withUpdate) = some (x', logx) ∧
      y.run (calls.map QuietCall.plain) = some (y', logy) ∧ results logx = results logy ∧
      x'.tables.Agrees y'.tables := by
  induction calls generalizing x y with
  | nil => exact ⟨x, y, [], [], rfl, rfl, rfl, h.agrees⟩
  | cons k calls ih =>
    obtain ⟨x₁, rep₁, hx₁, hwf₁, ht₁⟩ := step_matches hx (.update, k.updated)
    obtain ⟨x₂, rep₂, hx₂, hwf₂, ht₂⟩ := step_matches hwf₁ (k.op, k.latching)
    obtain ⟨y₁, rep, hy₁, hwf, ht⟩ := step_matches hy (k.op, k.nonLatching)
    have hop := hcalls k List.mem_cons_self
    obtain ⟨hsim, hidle⟩ : TableXPoint.Simulates (x.tables.step (.update, k.updated)).1 y.tables ∧
        (x.tables.step (.update, k.updated)).1.pulses.Idle := h.update (hquiet.1 rfl)
    rw [ht₁] at hsim hidle
    have hret : (x₁.tables.step (k.op, k.latching)).2.ret = (y.tables.step (k.op, k.nonLatching)).2.ret :=
      (hsim.step hidle hop).2
    have hsim : TableXPoint.Simulates (x₁.tables.step (k.op, k.latching)).1 (y.tables.step (k.op, k.nonLatching)).1 :=
      hsim.step_simulates hidle hop
    rw [ht₂, ht] at hret hsim
    obtain ⟨x', y', logx, logy, hrunx, hruny, hres, hag⟩ := ih hwf₂ hwf hsim
      (fun k hk => hcalls k (List.mem_cons_of_mem _ hk)) ((hquiet.2 _ hx₁).2 _ hx₂)
    refine ⟨x', y', _, _, Machine.run_cons hx₁ (Machine.run_cons hx₂ hrunx), Machine.run_cons hy₁ hruny, ?_, hag⟩
    rw [QuietCall.plain, results_update, results_cons hop, results_cons hop, hret, hres]

/-- A latching matrix that is updated before each call, when all its pulses are due, and a non-latching one of
    the same dimensions give the same results and keep the same tables. -/
theorem quiescent_simulates (hx : Built rows cols .latchingDualCoil pdur x) (hy : Built rows cols .nonLatching pdur' y)
    (dx dy : Option DriverRef) (hcalls : ∀ k ∈ calls, k.op.Addresses)
    (hquiet : Machine.Along step (fun x i => x.tables.Quiet i) (x.setDriver dx).1
      (calls.flatMap QuietCall.withUpdate)) :
    ∃ x' y' logx logy, (x.setDriver dx).1.run (calls.flatMap QuietCall.withUpdate) = some (x', logx) ∧
      (y.setDriver dy).1.run (calls.map QuietCall.plain) = some (y', logy) ∧ results logx = results logy ∧
      x'.tables.conn = y'.tables.conn ∧ x'.tables.lock = y'.tables.lock ∧ x'.tables.excl = y'.tables.excl := by
  obtain ⟨hwfx, htx⟩ := hx.setDriver_spec dx
  obtain ⟨hwfy, hty⟩ := hy.setDriver_spec dy
  have hsim : TableXPoint.Simulates (x.setDriver dx).1.tables (y.setDriver dy).1.tables := by
    rw [htx, hty]
    exact ⟨⟨rfl, rfl, rfl, rfl, rfl, hx.same_valid hy⟩, rfl, rfl, PulseTable.idle_init.distinct, PulseTable.idle_init⟩
  obtain ⟨x', y', logx, logy, hrunx, hruny, hres, hag⟩ := simulates_run hwfx hwfy hsim hcalls hquiet
  exact ⟨x', y', logx, logy, hrunx, hruny, hres, hag.conn, hag.lock, hag.excl⟩

theorem quiescent_simulates_connect_clearAll : ∃ x y, Built 2 2 .latchingDualCoil 5 x ∧ Built 2 2 .nonLatching 0 y ∧
    ∃ x' y' logx logy,
      (x.setDriver (some 0)).1.run ([⟨fun _ => 0, .connect 0 1, fun _ => 0, fun _ => 0⟩,
        ⟨fun _ => 5, .clearAll, fun _ => 5, fun _ => 5⟩].flatMap QuietCall.withUpdate) = some (x', logx) ∧
      (y.setDriver none).1.run ([⟨fun _ => 0, .connect 0 1, fun _ => 0, fun _ => 0⟩,
        ⟨fun _ => 5, .clearAll, fun _ => 5, fun _ => 5⟩].map QuietCall.plain) = some (y', logy) ∧
      results logx = results logy ∧
        x'.tables.conn = y'.tables.conn ∧ x'.tables.lock = y'.tables.lock ∧ x'.tables.excl = y'.tables.excl := by
  obtain ⟨x, hx⟩ := (exists_built 2 2 .latchingDualCoil 5).1
  obtain ⟨y, hy⟩ := (exists_built 2 2 .nonLatching 0).1
  have hx := Built.heap hx
  refine ⟨x, y, hx, .heap hy, quiescent_simulates hx (.heap hy) (some 0) none ?_ ?_⟩
  · simp only [List.forall_mem_cons, List.not_mem_nil, false_imp_iff, implies_true, and_true]
    exact ⟨trivial, trivial⟩
  obtain ⟨hwf, ht⟩ := hx.setDriver_spec (some 0)
  refine along_tables hwf ?_
  rw [ht]
  generalize x.pool.valid = valid
  simp only [List.flatMap_cons, List.flatMap_nil, QuietCall.withUpdate, List.cons_append, List.nil_append,
    Machine.along_pure]
  cases valid <;> exact ⟨by decide, by decide, by decide, by decide, trivial⟩

end XPoint

end Crosspoint
