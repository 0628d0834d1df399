import Crosspoint.Theorems.Events
import Crosspoint.Theorems.Layout

/-! The matrix on its packed pool simulates the matrix on three tables: from a well-formed state every
    operation succeeds, stays well formed, and does to the tables what the table machine does, with the same
    result and the same driver calls. -/

namespace Crosspoint
open Loops

namespace XPoint
variable {x : XPoint} {row col r c : UInt8} {millis : Clock}

/-- A step of the packed matrix matches the step `t` of the table machine. -/
def Matches (s : Option (XPoint × Reply)) (t : TableXPoint × Reply) : Prop :=
  ∃ x' rep, s = some (x', rep) ∧ x'.WellFormed ∧ t = (x'.tables, rep)

theorem Matches.some {x' : XPoint} (h : x'.WellFormed) (rep : Reply) : Matches (some (x', rep)) (x'.tables, rep) :=
  ⟨x', rep, rfl, h, rfl⟩

theorem Matches.ite {p : Prop} [Decidable p] {s₁ s₂ : Option (XPoint × Reply)} {t₁ t₂ : TableXPoint × Reply}
    (h₁ : p → Matches s₁ t₁) (h₂ : ¬p → Matches s₂ t₂) : Matches (if p then s₁ else s₂) (if p then t₁ else t₂) := by
  split
  · rename_i hp
    exact h₁ hp
  · rename_i hp
    exact h₂ hp

theorem WellFormed.setPulses (h : x.WellFormed) (pulses : PulseTable) : WellFormed (x.setPulses pulses) :=
  ⟨h.bits, h.words, h.sound⟩

@[simp] theorem tables_rows : x.tables.rows = x.rows := rfl
@[simp] theorem tables_cols : x.tables.cols = x.cols := rfl
@[simp] theorem tables_type : x.tables.type = x.type := rfl
@[simp] theorem tables_pulses : x.tables.pulses = x.pulses := rfl

/-! ### The checks -/

theorem occupied_eq (h : x.WellFormed) (hv : x.pool.valid = true) (hr : r < x.rows) (hc : col < x.cols) :
    x.occupied r col = some (x.tables.occupied r col) := by
  rw [occupied, (refines_tables h).conn hv r col hr hc, TableXPoint.occupied]
  cases x.tables.conn r col <;> rfl

theorem interlocked_eq (h : x.WellFormed) (hv : x.pool.valid = true) (hr : row < x.rows) (hc : col < x.cols) :
    x.interlocked row col = some (x.tables.interlocked row col) := by
  refine anyM_eq_some fun r hr' => ?_
  have hr' := mem_below.mp hr'
  split
  · rfl
  · rw [(refines_tables h).lock hv row r hr hr', occupied_eq h hv hr' hc]
    cases x.tables.lock row r <;> rfl

theorem exclusiveTaken_eq (h : x.WellFormed) (hv : x.pool.valid = true) (hc : col < x.cols) :
    x.exclusiveTaken row col = some (x.tables.exclusiveTaken row col) := by
  have hany : ((below x.rows).anyM fun r => if r = row then pure false else x.occupied r col) =
      some ((below x.rows).any fun r => if r = row then false else x.tables.occupied r col) := by
    refine anyM_eq_some fun r hr => ?_
    split
    · rfl
    · exact occupied_eq h hv (mem_below.mp hr) hc
  rw [exclusiveTaken, TableXPoint.exclusiveTaken, (refines_tables h).excl hv col hc, hany]
  cases x.tables.excl col <;> rfl

theorem blocked_eq (h : x.WellFormed) (hv : x.pool.valid = true) (hr : row < x.rows) (hc : col < x.cols) :
    x.blocked row col = some (x.tables.blocked row col) := by
  rw [blocked, TableXPoint.blocked, interlocked_eq h hv hr hc, exclusiveTaken_eq h hv hc]
  cases x.tables.interlocked row col <;> rfl

/-! ### The operations -/

theorem switchNode_matches (h : x.WellFormed) (hv : x.pool.valid = true) (hr : row < x.rows) (hc : col < x.cols)
    (millis : Clock) (on : Bool) : Matches (x.switchNode millis row col on) (x.tables.switchNode millis row col on) := by
  obtain ⟨pool, hset, hwf, ht⟩ := set_node h hv hr hc on
  rw [switchNode, TableXPoint.switchNode, tables_type, tables_pulses, hset, ← ht]
  cases x.type with
  | latchingDualCoil =>
    cases x.pulses.alloc row col with
    | none => exact .some h _
    | some slot => exact .some (hwf.setPulses _) _
  | nonLatching => exact .some hwf _

theorem connect_matches (h : x.WellFormed) (millis : Clock) (row col : UInt8) :
    Matches (x.connect millis row col) (x.tables.connect millis row col) := by
  refine Matches.ite (fun _ => .some h _) fun hin => ?_
  obtain ⟨hv, hr, hc⟩ := inside hin
  rw [blocked_eq h hv hr hc]
  refine Matches.ite (fun _ => .some h _) fun _ => ?_
  rw [(refines_tables h).conn hv row col hr hc]
  exact Matches.ite (fun _ => .some h _) fun _ => switchNode_matches h hv hr hc millis true

theorem disconnect_matches (h : x.WellFormed) (millis : Clock) (row col : UInt8) :
    Matches (x.disconnect millis row col) (x.tables.disconnect millis row col) := by
  refine Matches.ite (fun _ => .some h _) fun hin => ?_
  obtain ⟨hv, hr, hc⟩ := inside hin
  rw [(refines_tables h).conn hv row col hr hc]
  exact Matches.ite (fun _ => .some h _) fun _ => switchNode_matches h hv hr hc millis false

theorem setLevel_matches (h : x.WellFormed) (millis : Clock) (row col : UInt8) (level : UInt16) :
    Matches (x.setLevel millis row col level) (x.tables.setLevel millis row col level) := by
  refine Matches.ite (fun _ => .some h _) fun hin => ?_
  obtain ⟨hv, hr, hc⟩ := inside hin
  obtain ⟨pool, hset, hwf, ht⟩ := set_node h hv hr hc (decide (level > 0))
  have hsw := switchNode_matches h hv hr hc millis (decide (level > 0))
  rw [blocked_eq h hv hr hc]
  have hrule : (pure (decide (level > 0)) <&&> some (x.tables.blocked row col)) =
      some (decide (level > 0) && x.tables.blocked row col) := by
    cases decide (level > 0) <;> rfl
  dsimp only
  rw [hrule]
  refine Matches.ite (fun _ => .some h _) fun _ => ?_
  rw [(refines_tables h).conn hv row col hr hc, hset, ← ht, tables_type]
  cases x.type with
  | latchingDualCoil => exact Matches.ite (fun _ => .some h _) fun _ => hsw
  | nonLatching => exact .some hwf _

/-- A state of the sweep of `clearAll` over the packed matrix `x`, and the state of the sweep over its tables. -/
structure Swept (x : XPoint) (s : XPoint × List DriverCall) (t : TableXPoint × List DriverCall) : Prop where
  wellFormed : s.1.WellFormed
  valid : s.1.pool.valid = true
  rows : s.1.rows = x.rows
  cols : s.1.cols = x.cols
  same : t = (s.1.tables, s.2)

theorem clearNode_swept {s : XPoint × List DriverCall} {t : TableXPoint × List DriverCall} (h : Swept x s t)
    (hr : r < x.rows) (hc : c < x.cols) (now : UInt32) :
    ∃ s', clearNode now r c s = some s' ∧ Swept x s' (TableXPoint.clearNode now r c t) := by
  obtain ⟨y, calls⟩ := s
  obtain ⟨hwf, hv, hrows, hcols, rfl⟩ := h
  have hr : r < y.rows := hrows ▸ hr
  have hc : c < y.cols := hcols ▸ hc
  obtain ⟨pool, hset, hwf', ht⟩ := set_node hwf hv hr hc false
  have hv' : pool.valid = true := (congrArg TableXPoint.valid ht).trans hv
  rw [clearNode, TableXPoint.clearNode, (refines_tables hwf).conn hv r c hr hc, hset, tables_type, tables_pulses, ← ht]
  cases y.tables.conn r c with
  | false => exact ⟨_, rfl, hwf, hv, hrows, hcols, rfl⟩
  | true =>
    cases y.type with
    | nonLatching => exact ⟨_, rfl, hwf', hv', hrows, hcols, rfl⟩
    | latchingDualCoil =>
      rcases y.pulses.reclaim r c with ⟨pulses, _ | slot⟩
      · exact ⟨_, rfl, hwf'.setPulses pulses, hv', hrows, hcols, rfl⟩
      · exact ⟨_, rfl, hwf'.setPulses _, hv', hrows, hcols, rfl⟩

theorem clearAll_matches (h : x.WellFormed) (millis : Clock) :
    Matches (x.clearAll millis) (x.tables.clearAll millis) := by
  refine Matches.ite (fun _ => .some h _) fun hv => ?_
  have hv : x.pool.valid = true := by simpa using hv
  obtain ⟨s, hs, hsw⟩ := foldlM_sim (R := Swept x) (l := below x.rows) (s := (x, [])) (t := (x.tables, []))
    (f := fun s r => (below x.cols).foldlM
    (fun s c => clearNode (if x.type = .latchingDualCoil then millis 0 else 0) r c s) s)
    (g := fun t r => (below x.cols).foldl
      (fun t c => TableXPoint.clearNode (if x.type = .latchingDualCoil then millis 0 else 0) r c t) t)
    (fun r hr s t hst => foldlM_sim
      (fun c hc s t hst => clearNode_swept hst (mem_below.mp hr) (mem_below.mp hc) _) hst)
    ⟨h, hv, rfl, rfl, rfl⟩
  dsimp only
  rw [hs, tables_rows, tables_cols, tables_type, hsw.same]
  exact .some hsw.wellFormed _

theorem lockRows_matches (h : x.WellFormed) (rowA rowB : UInt8) :
    Matches (x.lockRows rowA rowB) (x.tables.lockRows rowA rowB) := by
  refine Matches.ite (fun _ => .some h _) fun hin => ?_
  obtain ⟨hv, ha, hb⟩ := inside hin
  obtain ⟨pool, hset, hwf, ht⟩ := set_ilock h hv ha hb
  have hv' : pool.valid = true := (congrArg TableXPoint.valid ht).trans hv
  obtain ⟨pool', hset', hwf', ht'⟩ := set_ilock hwf hv' hb ha
  have hset' : pool.set (x.ilockBit rowB rowA) true = some pool' := hset'
  rw [← ht, ← ht', hset]
  dsimp only [bind, Option.bind]
  rw [hset']
  exact .some hwf' _

theorem exclusiveInput_matches (h : x.WellFormed) (col : UInt8) :
    Matches (x.exclusiveInput col) (x.tables.exclusiveInput col) := by
  refine Matches.ite (fun _ => .some h _) fun hin => ?_
  obtain ⟨hv, hc⟩ := inside_col hin
  obtain ⟨pool, hset, hwf, ht⟩ := set_excl h hv hc
  rw [← ht, hset]
  exact .some hwf _

theorem update_matches (h : x.WellFormed) (millis : Clock) : Matches (some (x.update millis)) (x.tables.update millis) := by
  rw [update, TableXPoint.update, tables_type, tables_pulses, show x.tables.pdur = x.pdur from rfl]
  split
  · exact .some h _
  · rcases x.pulses.expire (millis 0) x.pdur with ⟨pulses, released⟩
    exact .some (h.setPulses pulses) _

/-- Every operation on the packed matrix is the operation on its tables. -/
theorem step_matches (h : x.WellFormed) (i : Op × Clock) : Matches (x.step i) (x.tables.step i) := by
  obtain ⟨op, millis⟩ := i
  cases op with
  | setDriver drv => exact ⟨_, _, rfl, ⟨h.bits, h.words, h.sound⟩, rfl⟩
  | begin => exact .some h _
  | connect row col => exact connect_matches h millis row col
  | disconnect row col => exact disconnect_matches h millis row col
  | setLevel row col level => exact setLevel_matches h millis row col level
  | clearAll => exact clearAll_matches h millis
  | lockRows rowA rowB => exact lockRows_matches h rowA rowB
  | exclusiveInput col => exact exclusiveInput_matches h col
  | update => exact update_matches h millis

/-! ### Runs -/

/-- A run on the packed matrix succeeds, and is the run on its tables with the same log. -/
theorem run_tables (h : x.WellFormed) (is : List (Op × Clock)) :
    ∃ x' log, x.run is = some (x', log) ∧ x'.WellFormed ∧ x.tables.run is = some (x'.tables, log) := by
  induction is generalizing x with
  | nil => exact ⟨x, [], rfl, h, rfl⟩
  | cons i is ih =>
    obtain ⟨y, rep, hy, hwf, ht⟩ := step_matches h i
    obtain ⟨x', log, hr, hwf', hr'⟩ := ih hwf
    exact ⟨x', (i, rep) :: log, Machine.run_cons hy hr, hwf', Machine.run_cons (congrArg some ht) hr'⟩

/-- A run on the packed matrix meets at each step what the run on its tables meets. -/
theorem along_tables {P : TableXPoint → Op × Clock → Prop} (h : x.WellFormed) {is : List (Op × Clock)}
    (hP : Machine.Along (fun a i => some (TableXPoint.step a i)) P x.tables is) :
    Machine.Along XPoint.step (fun x i => P x.tables i) x is := by
  induction is generalizing x with
  | nil => exact trivial
  | cons i is ih =>
    obtain ⟨y, rep, hy, hwf, ht⟩ := step_matches h i
    refine ⟨hP.1, fun r hr => ?_⟩
    obtain rfl := Option.some.inj (hy.symm.trans hr)
    refine ih hwf ?_
    have hrest := hP.2 _ rfl
    rw [ht] at hrest
    exact hrest

/-- An invariant of the driver calls so far and the tables holds after every run. -/
theorem run_keeps {J : List DriverCall → TableXPoint → Prop} {P : TableXPoint → Op × Clock → Prop}
    (hstep : ∀ cs a i, J cs a → a.pulses.Distinct → P a i → J (cs ++ (a.step i).2.calls) (a.step i).1)
    (h : x.WellFormed) (hd : x.pulses.Distinct) (hJ : J [] x.tables) {is : List (Op × Clock)}
    (hP : Machine.Along XPoint.step (fun x i => P x.tables i) x is) :
    ∃ x' log, x.run is = some (x', log) ∧ x'.WellFormed ∧ x'.pulses.Distinct ∧ J (driverCalls log) x'.tables := by
  let I (log : List ((Op × Clock) × Reply)) (y : XPoint) : Prop :=
    y.WellFormed ∧ y.pulses.Distinct ∧ J (driverCalls log) y.tables
  refine Machine.run_rule (I := I) (fun log x i ⟨hwf, hd, hJ⟩ hi => ?_) ⟨h, hd, hJ⟩ hP
  obtain ⟨y, rep, hy, hwf, ht⟩ := step_matches hwf i
  have hJ := hstep _ _ i hJ hd hi
  have hd : (x.tables.step i).1.pulses.Distinct := TableXPoint.step_distinct hd i
  rw [ht] at hJ hd
  refine ⟨y, rep, hy, hwf, hd, ?_⟩
  rw [driverCalls, Traces.flatMap_concat]
  exact hJ

/-! ### Construction -/

variable {rows cols : UInt8} {type : RelayType} {pdur : UInt16}

theorem heap_sound (hv : (BitPool.heap (poolBits rows cols)).valid = true) :
    (BitPool.heap (poolBits rows cols)).Sound := by
  rcases Nat.eq_zero_or_pos (poolBits rows cols).toNat with h0 | hpos
  · rw [UInt32.toNat_inj.mp (h0.trans UInt32.toNat_zero.symm)] at hv
    exact absurd hv (by decide)
  · exact BitPool.heap_sound (poolBits_le rows cols) hpos

theorem wrap_sound {buffer : Array UInt32} (room : (poolWords rows cols).toNat ≤ buffer.size) :
    (BitPool.wrap (some buffer) (poolBits rows cols)).Sound :=
  ⟨⟨buffer, rfl, room⟩, poolBits_le_poolWords rows cols⟩

/-- Only a matrix without rows and columns has a pool without words. -/
theorem heap_valid : (BitPool.heap (poolBits rows cols)).valid = true ∨ rows = 0 ∧ cols = 0 := by
  rcases Nat.eq_zero_or_pos (poolBits rows cols).toNat with h0 | hpos
  · rw [poolBits_toNat] at h0
    have hcols : cols.toNat = 0 := by omega
    have hrows : rows.toNat * rows.toNat = 0 := by omega
    exact .inr ⟨UInt8.toNat_inj.mp (by simpa using hrows), UInt8.toNat_inj.mp hcols⟩
  · exact .inl (BitPool.heap_sound (poolBits_le rows cols) hpos).valid

/-- `_init` succeeds on an allocated pool of the right size and leaves all tables false. -/
theorem init_spec (type : RelayType) (pdur : UInt16) {pool : BitPool} (hb : pool.nBits = poolBits rows cols)
    (hw : pool.nWords = poolWords rows cols) (hs : pool.valid = true → pool.Sound) :
    ∃ x, init ⟨rows, cols, type, pdur, none, pool, PulseTable.init⟩ = some x ∧ x.WellFormed ∧
      x.tables = TableXPoint.init rows cols type pdur pool.valid := by
  cases hv : pool.valid with
  | true =>
    obtain ⟨q, hq, hqs, hqb, hqw, hget⟩ := (hs hv).clear
    let x : XPoint := ⟨rows, cols, type, pdur, none, q, PulseTable.init⟩
    have hx : x.WellFormed := ⟨hqb.trans hb, hqw.trans hw, fun _ => hqs⟩
    have hget : ∀ m, m.toNat < x.pool.nBits.toNat → x.pool.get m = some false := by
      intro m hm
      exact hget m (hqb ▸ hm)
    refine ⟨x, by rw [init, hq]; rfl, hx, ?_⟩
    refine Refines.tables_eq ⟨rfl, rfl, rfl, rfl, rfl, rfl, hqs.valid, ?_, ?_, ?_⟩ rfl ⟨?_, ?_, ?_⟩
    · exact fun _ r c hr hc => hget _ (node_mem hx hr hc)
    · exact fun _ r s hr hs => hget _ (ilock_mem hx hr hs)
    · exact fun _ c hc => hget _ (excl_mem hx hc)
    all_goals simp [TableXPoint.init]
  | false =>
    have hnull : pool.words = none := by simpa [BitPool.valid] using hv
    let x : XPoint := ⟨rows, cols, type, pdur, none, pool, PulseTable.init⟩
    have hget : ∀ m, pool.get m = none := fun m => by simp [BitPool.get, hnull]
    refine ⟨x, by rw [init, BitPool.clear, hnull]; rfl, ⟨hb, hw, hs⟩, ?_⟩
    simp [tables, TableXPoint.init, x, hget, hv]

theorem exists_built (rows cols : UInt8) (type : RelayType) (pdur : UInt16) :
    (∃ x, heap rows cols type pdur = some x) ∧ ∀ buffer : Array UInt32, (poolWords rows cols).toNat ≤ buffer.size →
      ∃ x, onPool rows cols (some buffer) type pdur = some x := by
  refine ⟨?_, fun buffer room => ?_⟩
  · obtain ⟨x, hx, -⟩ := init_spec type pdur rfl rfl heap_sound
    exact ⟨x, hx⟩
  · obtain ⟨x, hx, -⟩ := init_spec type pdur rfl rfl fun _ => wrap_sound room
    exact ⟨x, hx⟩

theorem Built.pool (h : Built rows cols type pdur x) : ∃ pool : BitPool, pool.nBits = poolBits rows cols ∧
    pool.nWords = poolWords rows cols ∧ (pool.valid = true → pool.Sound) ∧ (pool.valid = true ∨ rows = 0 ∧ cols = 0) ∧
    init ⟨rows, cols, type, pdur, none, pool, PulseTable.init⟩ = some x := by
  cases h with
  | heap h => exact ⟨_, rfl, rfl, heap_sound, heap_valid, h⟩
  | onPool buffer room h => exact ⟨_, rfl, rfl, fun _ => wrap_sound room, .inl rfl, h⟩

theorem Built.spec (h : Built rows cols type pdur x) :
    x.WellFormed ∧ x.tables = TableXPoint.init rows cols type pdur x.pool.valid := by
  obtain ⟨pool, hb, hw, hs, -, hinit⟩ := h.pool
  obtain ⟨y, hy, hwf, ht⟩ := init_spec type pdur hb hw hs
  obtain rfl : y = x := Option.some.inj (hy.symm.trans hinit)
  have hv : y.pool.valid = pool.valid := congrArg TableXPoint.valid ht
  exact ⟨hwf, hv ▸ ht⟩

theorem Built.valid (h : Built rows cols type pdur x) : x.pool.valid = true ∨ rows = 0 ∧ cols = 0 := by
  obtain ⟨pool, hb, hw, hs, hvalid, hinit⟩ := h.pool
  obtain ⟨y, hy, -, ht⟩ := init_spec type pdur hb hw hs
  obtain rfl : y = x := Option.some.inj (hy.symm.trans hinit)
  have hv : y.pool.valid = pool.valid := congrArg TableXPoint.valid ht
  exact hv ▸ hvalid

/-- Two matrices of one size both have a pool, unless there is nothing to keep in it. -/
theorem Built.same_valid {y : XPoint} {type' : RelayType} {pdur' : UInt16} (hx : Built rows cols type pdur x)
    (hy : Built rows cols type' pdur' y) : x.pool.valid = y.pool.valid ∨ rows = 0 ∧ cols = 0 := by
  rcases hx.valid with hv | hzero
  · exact hy.valid.imp_left fun hv' => hv.trans hv'.symm
  · exact .inr hzero

theorem Built.distinct (h : Built rows cols type pdur x) : x.pulses.Distinct := by
  have hp : x.pulses = PulseTable.init := congrArg TableXPoint.pulses h.spec.2
  rw [hp]
  exact PulseTable.idle_init.distinct

/-- A run keeps what every operation relies on. -/
theorem run_wellFormed {x' : XPoint} {ops : List (Op × Clock)} {log : List ((Op × Clock) × Reply)} (h : x.WellFormed)
    (hd : x.pulses.Distinct) (hrun : x.run ops = some (x', log)) : x'.WellFormed ∧ x'.pulses.Distinct := by
  obtain ⟨y, log', hrun', hwf, hd', -⟩ := run_keeps (J := fun _ _ => True) (P := fun _ _ => True)
    (fun _ _ _ _ _ _ => trivial) h hd trivial (Machine.Along.of_forall fun _ _ _ => trivial)
  obtain ⟨rfl, -⟩ := Prod.mk.inj (Option.some.inj (hrun'.symm.trans hrun))
  exact ⟨hwf, hd'⟩

theorem run_size {x' : XPoint} {ops : List (Op × Clock)} {log : List ((Op × Clock) × Reply)}
    (h : Built rows cols type pdur x) (hrun : x.run ops = some (x', log)) : x'.rows = rows ∧ x'.cols = cols := by
  obtain ⟨hwf, ht⟩ := h.spec
  obtain ⟨y, log', hrun', -, -, hsize⟩ := run_keeps (J := fun _ a => a.rows = rows ∧ a.cols = cols)
    (P := fun _ _ => True)
    (fun cs a i hJ hd _ => ⟨(TableXPoint.step_rows hd i).trans hJ.1, (TableXPoint.step_cols hd i).trans hJ.2⟩)
    hwf h.distinct (ht ▸ ⟨rfl, rfl⟩) (Machine.Along.of_forall fun _ _ _ => trivial)
  obtain ⟨rfl, -⟩ := Prod.mk.inj (Option.some.inj (hrun'.symm.trans hrun))
  exact hsize

/-! ### With a driver attached -/

theorem Built.setDriver_spec (h : Built rows cols type pdur x) (drv : Option DriverRef) :
    (x.setDriver drv).1.WellFormed ∧
      (x.setDriver drv).1.tables = ((TableXPoint.init rows cols type pdur x.pool.valid).setDriver drv).1 :=
  let ⟨hwf, ht⟩ := h.spec
  ⟨⟨hwf.bits, hwf.words, hwf.sound⟩, congrArg (fun a => (TableXPoint.setDriver a drv).1) ht⟩

theorem Attached.spec {d : DriverRef} (h : Attached rows cols type pdur d x) : x.WellFormed ∧ x.pulses.Distinct ∧
    ∃ valid, x.tables = ((TableXPoint.init rows cols type pdur valid).setDriver (some d)).1 := by
  obtain ⟨y, hy, rfl⟩ := h
  obtain ⟨hwf, ht⟩ := hy.setDriver_spec (some d)
  exact ⟨hwf, hy.distinct, y.pool.valid, ht⟩

theorem Attached.valid {d : DriverRef} (h : Attached rows cols type pdur d x) : x.pool.valid = true ∨ rows = 0 := by
  obtain ⟨y, hy, rfl⟩ := h
  exact hy.valid.imp id And.left

theorem exists_attached (rows cols : UInt8) (type : RelayType) (pdur : UInt16) (d : DriverRef) :
    ∃ x, Attached rows cols type pdur d x :=
  let ⟨⟨y, hy⟩, _⟩ := exists_built rows cols type pdur
  ⟨_, y, .heap hy, rfl⟩

/-- `run_keeps` for a matrix whose driver stays attached. -/
theorem Attached.run_keeps {d : DriverRef} {J : List DriverCall → TableXPoint → Prop}
    {P : TableXPoint → Op × Clock → Prop} {ops : List (Op × Clock)} (h : Attached rows cols type pdur d x)
    (hstep : ∀ cs a i, J cs a → a.pulses.Distinct → a.drv = some d → P a i →
      J (cs ++ (a.step i).2.calls) (a.step i).1)
    (hJ : ∀ valid, J [] ((TableXPoint.init rows cols type pdur valid).setDriver (some d)).1)
    (hops : ∀ i ∈ ops, i.1.KeepsDriver d) (hP : Machine.Along XPoint.step (fun x i => P x.tables i) x ops) :
    ∃ x' log, x.run ops = some (x', log) ∧ x'.pulses.Distinct ∧ J (driverCalls log) x'.tables := by
  obtain ⟨hwf, hd, valid, ht⟩ := h.spec
  obtain ⟨x', log, hrun, -, hd', hJ', -⟩ := XPoint.run_keeps (J := fun cs a => J cs a ∧ a.drv = some d)
    (P := fun a i => P a i ∧ i.1.KeepsDriver d)
    (fun cs a i hI hd hi => ⟨hstep cs a i hI.1 hd hI.2 hi.1, TableXPoint.step_drv hd hI.2 hi.2⟩)
    hwf hd ⟨ht ▸ hJ valid, by rw [ht]; rfl⟩ (hP.and (Machine.Along.of_forall fun i hi _ => hops i hi))
  exact ⟨x', log, hrun, hd', hJ'⟩

/-! ### The packed pool as three tables -/

/-- A write of one entry changes that entry of its table, and no other table. -/
structure Separate (x : XPoint) : Prop where
  conn : ∀ r c v, r < x.rows → c < x.cols → ∃ pool, x.pool.set (x.nodeBit r c) v = some pool ∧
    tables (x.setPool pool) = x.tables.setConn r c v
  lock : ∀ a b, a < x.rows → b < x.rows → ∃ pool, x.pool.set (x.ilockBit a b) true = some pool ∧
    tables (x.setPool pool) = x.tables.setLock a b
  excl : ∀ c, c < x.cols → ∃ pool, x.pool.set (x.exclBit c) true = some pool ∧
    tables (x.setPool pool) = x.tables.setExcl c

/-- Every access that succeeds on a pool of this size is of a bit of the three sections, in an allocated word. -/
def Bounded (rows cols : UInt8) (pool : BitPool) : Prop :=
  ∀ n : UInt32, (pool.get n).isSome = true ∨ (∃ v, (pool.set n v).isSome = true) →
    n.toNat < rows.toNat * cols.toNat + rows.toNat * rows.toNat + cols.toNat ∧
      n.toNat / 32 < (poolWords rows cols).toNat

theorem WellFormed.separate (h : x.WellFormed) (hv : x.pool.valid = true) : x.Separate where
  conn _ _ v hr hc := let ⟨pool, hset, _, ht⟩ := set_node h hv hr hc v; ⟨pool, hset, ht⟩
  lock _ _ ha hb := let ⟨pool, hset, _, ht⟩ := set_ilock h hv ha hb; ⟨pool, hset, ht⟩
  excl _ hc := let ⟨pool, hset, _, ht⟩ := set_excl h hv hc; ⟨pool, hset, ht⟩

theorem bounded {pool : BitPool} (hb : pool.nBits = poolBits rows cols) (hw : pool.nWords = poolWords rows cols) :
    Bounded rows cols pool := by
  intro n hn
  rw [← poolBits_toNat, ← hb, ← hw]
  rcases hn with hn | ⟨v, hn⟩
  · obtain ⟨b, hget⟩ := Option.isSome_iff_exists.mp hn
    exact BitPool.get_eq_some hget
  · obtain ⟨q, hset⟩ := Option.isSome_iff_exists.mp hn
    exact (BitPool.set_eq_some hset).1

/-- Whatever the constructor and the calls, the packed matrix answers as the matrix on three tables that are
    false at first, and never touches its pool outside the three sections. -/
theorem simulates_tables (h : Built rows cols type pdur x) (ops : List (Op × Clock)) :
    ∃ x' a' log, x.run ops = some (x', log) ∧
      (TableXPoint.init rows cols type pdur x.pool.valid).run ops = some (a', log) ∧ x'.Refines a' ∧
      (x'.pool.valid = true → x'.Separate) ∧
      ∀ pool : BitPool, pool.nBits = x'.pool.nBits → pool.nWords = x'.pool.nWords → Bounded rows cols pool := by
  obtain ⟨hwf, ht⟩ := h.spec
  obtain ⟨x', log, hrun, hwf', hrun'⟩ := run_tables hwf ops
  rw [ht] at hrun'
  have hsize : x'.rows = rows ∧ x'.cols = cols := run_size h hrun
  refine ⟨x', x'.tables, log, hrun, hrun', refines_tables hwf', hwf'.separate, fun pool hb hw => ?_⟩
  rw [hwf'.bits, hsize.1, hsize.2] at hb
  rw [hwf'.words, hsize.1, hsize.2] at hw
  exact bounded hb hw

theorem simulates_tables_three_by_two : ∃ x, heap 3 2 .latchingDualCoil 5 = some x ∧
    ∃ x' a' log, x.run [(.connect 2 1, fun _ => 7), (.clearAll, fun _ => 8)] = some (x', log) ∧
      (TableXPoint.init 3 2 .latchingDualCoil 5 x.pool.valid).run [(.connect 2 1, fun _ => 7), (.clearAll, fun _ => 8)] =
        some (a', log) ∧ x'.Refines a' ∧ (x'.pool.valid = true → x'.Separate) ∧
      ∀ pool : BitPool, pool.nBits = x'.pool.nBits → pool.nWords = x'.pool.nWords → Bounded 3 2 pool := by
  obtain ⟨x, hx⟩ := (exists_built 3 2 .latchingDualCoil 5).1
  exact ⟨x, hx, simulates_tables (.heap hx) _⟩

end XPoint

end Crosspoint
