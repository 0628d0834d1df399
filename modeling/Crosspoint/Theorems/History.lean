import Crosspoint.Theorems.Acceptance
import Crosspoint.Theorems.Contacts
import Crosspoint.Theorems.Rig
import Crosspoint.Theorems.Sweep

/-! What the log of a run tells about the matrix. Refused operations might as well not have been made; the bit of a
    node is what the last accepted one commanded; and the contact of a latching node is closed when that is so, or
    when a `clearAll` passed the node over and nothing has connected it since. -/

namespace Crosspoint
open PulseTable

/-- The operation was not refused. -/
def accepted (e : (Op × Clock) × Reply) : Bool := e.2.ret != some false

/-- The operation connected node `(r, c)`, or found it connected. -/
def Connects (r c : UInt8) (e : (Op × Clock) × Reply) : Prop := ∃ v, e.1.1.commands r c e.2.ret = some v ∧ 0 < v

/-- A `clearAll` cleared the bit of node `(r, c)` and did not drive the node. -/
structure PassesOver (r c : UInt8) (pre : List ((Op × Clock) × Reply)) (e : (Op × Clock) × Reply) : Prop where
  op : e.1.1 = .clearAll
  connected : 0 < commanded pre r c
  undriven : .setNodeHardware r c false ∉ e.2.calls

/-- `clearAll` passed node `(r, c)` over, and no operation has connected it since. -/
def Stranded (log : List ((Op × Clock) × Reply)) (r c : UInt8) : Prop :=
  Traces.Since (PassesOver r c) (fun e => ¬Connects r c e) log

/-! ### What an operation commands -/

namespace Op
variable {op : Op} {r c r₀ c₀ : UInt8} {on : Bool} {ret : Option Bool}

/-- An operation that asks for a node commands a value for that node, if it is accepted. -/
theorem commands_asks (hop : op.asks = some (r₀, c₀, on)) : ∃ v : UInt16, on = decide (0 < v) ∧
    ∀ r c, op.commands r c (some true) = if r₀ = r ∧ c₀ = c then some v else none := by
  cases op with
  | connect row col =>
    obtain ⟨rfl, rfl, rfl⟩ : row = r₀ ∧ col = c₀ ∧ true = on := by simpa [asks] using hop
    exact ⟨0xFFFF, rfl, fun _ _ => rfl⟩
  | disconnect row col =>
    obtain ⟨rfl, rfl, rfl⟩ : row = r₀ ∧ col = c₀ ∧ false = on := by simpa [asks] using hop
    exact ⟨0x0000, rfl, fun _ _ => rfl⟩
  | setLevel row col level =>
    obtain ⟨rfl, rfl, rfl⟩ : row = r₀ ∧ col = c₀ ∧ decide (level > 0) = on := by simpa [asks] using hop
    exact ⟨level, rfl, fun _ _ => rfl⟩
  | _ => cases hop

/-- A refused operation commands nothing. -/
theorem commands_refused (hop : op ≠ .clearAll) (hret : ret ≠ some true) : op.commands r c ret = none := by
  unfold commands
  split
  · exact absurd rfl hret
  · exact absurd rfl hret
  · exact absurd rfl hret
  · exact absurd rfl hop
  · rfl

theorem asks_clearAll (hop : op.asks = some (r, c, on)) : op ≠ .clearAll := by
  rintro rfl
  cases hop

end Op

/-! ### The operations that do not ask for a node -/

namespace TableXPoint
variable {a : TableXPoint} {i : Op × Clock} {r c : UInt8} {on v : Bool}

/-- They keep the bits, cannot be refused, and drive no node. -/
structure Aside (a : TableXPoint) (s : TableXPoint × Reply) : Prop where
  conn : s.1.conn = a.conn
  ret : s.2.ret = none
  calls : ∀ r c v, .setNodeHardware r c v ∉ s.2.calls

theorem Aside.idle : Aside a (a, ⟨none, []⟩) := ⟨rfl, rfl, fun _ _ _ => List.not_mem_nil⟩

theorem mem_drive {call : DriverCall} {cs : List DriverCall} (h : call ∈ a.drive cs) : call ∈ cs := by
  unfold drive at h
  split at h
  · exact h
  · exact absurd h List.not_mem_nil

theorem step_aside (hop : i.1.asks = none) (hclear : i.1 ≠ .clearAll) : Aside a (a.step i) := by
  obtain ⟨op, millis⟩ := i
  cases op with
  | setDriver drv => exact ⟨rfl, rfl, fun _ _ _ => List.not_mem_nil⟩
  | begin => exact ⟨rfl, rfl, fun _ _ _ hmem => by simpa using mem_drive hmem⟩
  | lockRows rowA rowB =>
    change Aside a (a.lockRows rowA rowB)
    unfold lockRows
    split
    · exact .idle
    · exact ⟨rfl, rfl, fun _ _ _ => List.not_mem_nil⟩
  | exclusiveInput col =>
    change Aside a (a.exclusiveInput col)
    unfold exclusiveInput
    split
    · exact .idle
    · exact ⟨rfl, rfl, fun _ _ _ => List.not_mem_nil⟩
  | update =>
    change Aside a (a.update millis)
    unfold update
    split
    · exact .idle
    · generalize a.pulses.expire (millis 0) a.pdur = u
      refine ⟨rfl, rfl, fun r c v hmem => ?_⟩
      rcases List.mem_append.mp (mem_drive hmem) with hmem | hmem
      · simp at hmem
      · split at hmem <;> simp at hmem
  | clearAll => exact absurd rfl hclear
  | _ => cases hop

/-- The calls of an operation that asks for a node of a latching matrix. -/
theorem orders_latching {op : Op} (hop : op.asks = some (r, c, on)) (ht : a.type = .latchingDualCoil) :
    a.orders op = if a.conn r c = on then [] else [.setNodeHardware r c on, .commitPhysicalUpdates] := by
  have hne : a.type ≠ .nonLatching := fun h => by cases ht.symm.trans h
  cases op with
  | connect row col =>
    obtain ⟨rfl, rfl, rfl⟩ : row = r ∧ col = c ∧ true = on := by simpa [Op.asks] using hop
    rfl
  | disconnect row col =>
    obtain ⟨rfl, rfl, rfl⟩ : row = r ∧ col = c ∧ false = on := by simpa [Op.asks] using hop
    rw [orders]
    cases a.conn row col <;> rfl
  | setLevel row col level =>
    obtain ⟨rfl, rfl, rfl⟩ : row = r ∧ col = c ∧ decide (level > 0) = on := by simpa [Op.asks] using hop
    rw [orders, if_neg hne]
  | _ => cases hop

end TableXPoint

namespace XPoint
variable {x x' : XPoint} {i : Op × Clock} {rep : Reply} {rows cols r c r₀ c₀ : UInt8} {on : Bool} {type : RelayType}
  {pdur : UInt16} {log : List ((Op × Clock) × Reply)}

/-! ### One step -/

theorem outcome_of_step (h : x.WellFormed) (hop : i.1.asks = some (r₀, c₀, on)) (hstep : x.step i = some (x', rep)) :
    Outcome x i.2 i.1 r₀ c₀ on x' rep := by
  obtain ⟨op, millis⟩ := i
  have hsome {s : Option (XPoint × Reply)}
      (hs : ∃ y o, s = some (y, o) ∧ Outcome x millis op r₀ c₀ on y o) (heq : s = some (x', rep)) :
      Outcome x millis op r₀ c₀ on x' rep := by
    obtain ⟨y, o, hy, ho⟩ := hs
    obtain ⟨rfl, rfl⟩ := Prod.mk.inj (Option.some.inj (hy.symm.trans heq))
    exact ho
  cases op with
  | connect row col =>
    obtain ⟨rfl, rfl, rfl⟩ : row = r₀ ∧ col = c₀ ∧ true = on := by simpa [Op.asks] using hop
    exact hsome (connect_outcome h millis row col) hstep
  | disconnect row col =>
    obtain ⟨rfl, rfl, rfl⟩ : row = r₀ ∧ col = c₀ ∧ false = on := by simpa [Op.asks] using hop
    exact hsome (disconnect_outcome h millis row col) hstep
  | setLevel row col level =>
    obtain ⟨rfl, rfl, hon⟩ : row = r₀ ∧ col = c₀ ∧ decide (level > 0) = on := by simpa [Op.asks] using hop
    exact hsome (setLevel_outcome h millis row col hon) hstep
  | _ => cases hop

theorem tables_of_step (h : x.WellFormed) (hstep : x.step i = some (x', rep)) :
    x'.WellFormed ∧ x.tables.step i = (x'.tables, rep) := by
  obtain ⟨y, o, hy, hwf, ht⟩ := step_matches h i
  obtain ⟨rfl, rfl⟩ := Prod.mk.inj (Option.some.inj (hy.symm.trans hstep))
  exact ⟨hwf, ht⟩

/-- A refused operation leaves the matrix as it was and calls nothing. -/
theorem refused_of_step (h : x.WellFormed) (hstep : x.step i = some (x', rep)) (hret : rep.ret = some false) :
    x' = x ∧ rep.calls = [] := by
  cases hop : i.1.asks with
  | some n => exact ((outcome_of_step h hop hstep).refused (by rw [hret]; decide)).2
  | none =>
    have htab := (tables_of_step h hstep).2
    have hnone : rep.ret = none := by
      by_cases hclear : i.1 = .clearAll
      · obtain ⟨op, millis⟩ := i
        obtain rfl : op = .clearAll := hclear
        exact (congrArg (fun s => s.2.ret) htab).symm.trans TableXPoint.clearAll_ret
      · exact (congrArg (fun s => s.2.ret) htab).symm.trans (TableXPoint.step_aside hop hclear).ret
    cases hret.symm.trans hnone

/-- The bit of a node is what the operation commands for it, or as it was. -/
theorem bit_of_step (h : x.WellFormed) (hv : x.pool.valid = true) (hr : r < x.rows) (hc : c < x.cols)
    (hstep : x.step i = some (x', rep)) :
    x'.tables.conn r c = (i.1.commands r c rep.ret).elim (x.tables.conn r c) fun v => decide (0 < v) := by
  cases hop : i.1.asks with
  | some n =>
    obtain ⟨r₀, c₀, on⟩ := n
    have hout := outcome_of_step h hop hstep
    by_cases hret : rep.ret = some true
    · obtain ⟨v, rfl, hcmd⟩ := Op.commands_asks hop
      have hconn : x'.tables.conn = setEntry x.tables.conn r₀ c₀ (decide (0 < v)) :=
        congrArg TableXPoint.conn (hout.bit hret)
      rw [hret, hcmd, hconn]
      split
      · rename_i hnode
        obtain ⟨rfl, rfl⟩ := hnode
        exact setEntry_self _ _ _ _
      · rename_i hnode
        exact setEntry_ne fun heq => hnode ⟨heq.1.symm, heq.2.symm⟩
    · rw [Op.commands_refused (Op.asks_clearAll hop) hret, (hout.refused hret).2.1]
      rfl
  | none =>
    have htab := (tables_of_step h hstep).2
    by_cases hclear : i.1 = .clearAll
    · obtain ⟨op, millis⟩ := i
      obtain rfl : op = .clearAll := hclear
      have hx' : (x.tables.clearAll millis).1 = x'.tables := congrArg Prod.fst htab
      rw [← hx']
      exact TableXPoint.clearAll_conn hv hr hc
    · have haside : TableXPoint.Aside x.tables (x.tables.step i) := TableXPoint.step_aside hop hclear
      rw [htab] at haside
      rw [Op.commands_refused hclear (by rw [haside.ret]; decide)]
      exact congrFun (congrFun haside.conn r) c

/-! ### Refused operations -/

/-- Operations that return false can be left out of any run: the others then get the same replies and make the same
    driver calls, and the matrix ends in the same state. -/
theorem run_accepted (h : Built rows cols type pdur x) (ops : List (Op × Clock)) : ∃ x' log, x.run ops = some (x', log) ∧
    x.run ((log.filter accepted).map Prod.fst) = some (x', log.filter accepted) ∧
      driverCalls (log.filter accepted) = driverCalls log := by
  obtain ⟨hwf, -⟩ := h.spec
  obtain ⟨x', log, hrun, -, -⟩ := run_tables hwf ops
  refine ⟨x', log, hrun, ?_⟩
  change _ ∧ (log.filter accepted).flatMap (fun e => e.2.calls) = log.flatMap fun e => e.2.calls
  exact Machine.run_drop (I := WellFormed) (fun y i z rep hwf hstep => ⟨(tables_of_step hwf hstep).1, fun hno =>
    refused_of_step hwf hstep (by simpa [accepted] using hno)⟩) hwf hrun

theorem run_accepted_two_by_two : ∃ x, heap 2 2 .latchingDualCoil 5 = some x ∧ ∃ x' log,
    x.run [(.connect 0 0, fun _ => 0), (.disconnect 0 0, fun _ => 3), (.update, fun _ => 5)] = some (x', log) ∧
      x.run ((log.filter accepted).map Prod.fst) = some (x', log.filter accepted) ∧
        driverCalls (log.filter accepted) = driverCalls log := by
  obtain ⟨x, hx⟩ := (exists_built 2 2 .latchingDualCoil 5).1
  exact ⟨x, hx, run_accepted (.heap hx) _⟩

/-! ### Bits -/

/-- The bits are what the log commands. -/
structure Recorded (rows cols : UInt8) (log : List ((Op × Clock) × Reply)) (x : XPoint) : Prop where
  wf : x.WellFormed
  distinct : x.pulses.Distinct
  height : x.rows = rows
  width : x.cols = cols
  valid : x.pool.valid = true ∨ rows = 0
  bits : ∀ r c, r < rows → c < cols → x.tables.conn r c = decide (0 < commanded log r c)

theorem Recorded.pool (h : Recorded rows cols log x) (hr : r < rows) : x.pool.valid = true :=
  h.valid.resolve_right fun h0 => by
    rw [h0] at hr
    exact absurd hr (by simp [UInt8.lt_iff_toNat_lt])

theorem Built.recorded (h : Built rows cols type pdur x) : Recorded rows cols [] x := by
  obtain ⟨hwf, ht⟩ := h.spec
  refine ⟨hwf, h.distinct, congrArg TableXPoint.rows ht, congrArg TableXPoint.cols ht, h.valid.imp_right And.left,
    fun r c _ _ => ?_⟩
  rw [ht]
  rfl

theorem Recorded.step (h : Recorded rows cols log x) (hstep : x.step i = some (x', rep)) :
    Recorded rows cols (log ++ [(i, rep)]) x' := by
  obtain ⟨hwf, htab⟩ := tables_of_step h.wf hstep
  have hx' : (x.tables.step i).1 = x'.tables := congrArg Prod.fst htab
  have hd : x.tables.pulses.Distinct := h.distinct
  refine ⟨hwf, ?_, ?_, ?_, ?_, fun r c hr hc => ?_⟩
  · have hdistinct := TableXPoint.step_distinct hd i
    rwa [hx'] at hdistinct
  · have hrows := TableXPoint.step_rows hd i
    rw [hx'] at hrows
    exact hrows.trans h.height
  · have hcols := TableXPoint.step_cols hd i
    rw [hx'] at hcols
    exact hcols.trans h.width
  · have hvalid := TableXPoint.step_valid hd i
    rw [hx'] at hvalid
    exact h.valid.imp_left fun hv => hvalid.trans hv
  · rw [bit_of_step h.wf (h.pool hr) (h.height ▸ hr) (h.width ▸ hc) hstep, commanded_concat, h.bits r c hr hc]
    cases i.1.commands r c rep.ret <;> rfl

/-- In every run, whatever was refused and whatever the sweeps had slots for, the state bit of a node is set exactly
    if the last operation that was accepted for it commands more than 0; `clearAll` commands 0 for every node. -/
theorem run_recorded (h : Built rows cols type pdur x) (ops : List (Op × Clock)) : ∃ x' log, x.run ops = some (x', log) ∧
    ∀ r c, r < rows → c < cols → x'.pool.get (x'.nodeBit r c) = some (decide (0 < commanded log r c)) := by
  obtain ⟨x', log, hrun, hend⟩ := Machine.run_rule (I := Recorded rows cols) (P := fun _ _ => True)
    (fun log y i hy _ => by
      obtain ⟨z, rep, hstep, -, -⟩ := step_matches hy.wf i
      exact ⟨z, rep, hstep, hy.step hstep⟩)
    h.recorded (Machine.Along.of_forall fun i _ _ => trivial : Machine.Along _ _ _ ops)
  refine ⟨x', log, hrun, fun r c hr hc => ?_⟩
  rw [← hend.bits r c hr hc]
  exact (refines_tables hend.wf).conn (hend.pool hr) r c (lt_of_lt_of_eq hr hend.height.symm)
    (lt_of_lt_of_eq hc hend.width.symm)

theorem run_recorded_two_by_two : ∃ x, heap 2 2 .latchingDualCoil 5 = some x ∧ ∃ x' log,
    x.run [(.connect 0 1, fun _ => 0), (.disconnect 0 1, fun _ => 3), (.clearAll, fun _ => 4), (.connect 1 0, fun _ => 9)] =
      some (x', log) ∧
    ∀ r c, r < 2 → c < 2 → x'.pool.get (x'.nodeBit r c) = some (decide (0 < commanded log r c)) := by
  obtain ⟨x, hx⟩ := (exists_built 2 2 .latchingDualCoil 5).1
  exact ⟨x, hx, run_recorded (.heap hx) _⟩

end XPoint

/-! ### Contacts -/

section Contacts
variable {r c : UInt8} {k : Contact} {call : DriverCall} {cs ds : List DriverCall}

theorem Contact.move_closed (hon : call ≠ .setNodeHardware r c true) :
    move r c k call = .closed ↔ k = .closed ∧ call ≠ .setNodeHardware r c false := by
  cases call with
  | setNodeHardware r' c' on =>
    by_cases hnode : r = r' ∧ c = c'
    · obtain ⟨rfl, rfl⟩ := hnode
      cases on with
      | true => exact absurd rfl hon
      | false =>
        rw [move_set]
        simp
    · rw [move_other (DriverCall.names_set hnode)]
      refine (and_iff_left ?_).symm
      rintro heq
      obtain ⟨rfl, rfl, -⟩ := DriverCall.setNodeHardware.inj heq
      exact hnode ⟨rfl, rfl⟩
  | releaseNode r' c' =>
    refine Iff.trans ?_ (and_iff_left (by simp)).symm
    by_cases hnode : r = r' ∧ c = c'
    · obtain ⟨rfl, rfl⟩ := hnode
      rw [move_release]
      cases k <;> simp
    · rw [move_other (DriverCall.names_release hnode)]
  | _ => exact (and_iff_left (by simp)).symm

/-- Calls that do not close a contact leave it closed exactly if they do not open it either. -/
theorem closed_append (hon : .setNodeHardware r c true ∉ ds) :
    contact (cs ++ ds) r c = .closed ↔ contact cs r c = .closed ∧ .setNodeHardware r c false ∉ ds := by
  induction ds generalizing cs with
  | nil => simp
  | cons call ds ih =>
    rw [List.mem_cons, not_or] at hon
    obtain ⟨hcall, hds⟩ := hon
    rw [List.append_cons, ih hds, TableXPoint.contact_concat, Contact.move_closed (Ne.symm hcall), List.mem_cons, not_or,
      and_assoc]
    exact and_congr_right fun _ => and_congr_left fun _ => ne_comm

end Contacts

namespace TableXPoint
variable {a b : TableXPoint} {e : Event} {i : Op × Clock} {millis : Clock} {cs : List DriverCall} {r c : UInt8} {v : Bool}

/-- The contact of a connected node is closed, and a contact that is not closed stands as the slot of its node says. -/
structure Posed (cs : List DriverCall) (a : TableXPoint) : Prop where
  type : a.type = .latchingDualCoil
  closed : ∀ r c, a.conn r c = true → contact cs r c = .closed
  slots : ∀ r c, contact cs r c ≠ .closed → contact cs r c = standing false (a.pulses.pending r c)

namespace Posed

theorem other (ha : Posed cs a) {call : DriverCall} (hn : ∀ r c, call.names r c = false) : Posed (cs ++ [call]) a where
  type := ha.type
  closed r c := by
    rw [contact_concat, Contact.move_other (hn r c)]
    exact ha.closed r c
  slots r c := by
    rw [contact_concat, Contact.move_other (hn r c)]
    exact ha.slots r c

theorem congr (ha : Posed cs a) (ht : b.type = a.type) (hc : ∀ r c, b.conn r c = true → a.conn r c = true)
    (hp : b.pulses = a.pulses) : Posed (cs ++ []) b where
  type := ht.trans ha.type
  closed r c hconn := by
    rw [List.append_nil]
    exact ha.closed r c (hc r c hconn)
  slots r c := by
    rw [List.append_nil, hp]
    exact ha.slots r c

theorem set (ha : Posed cs a) {i : Fin MAX_PULSES} {r₀ c₀ : UInt8} {on : Bool} {t : UInt32}
    (hi : (a.pulses.get i).on = false ∨ (a.pulses.get i).names r₀ c₀ = true) :
    Posed (cs ++ [.setNodeHardware r₀ c₀ on]) ((a.setConn r₀ c₀ on).setPulses (a.pulses.put i ⟨r₀, c₀, t, true⟩)) where
  type := ha.type
  closed r c hconn := by
    rw [contact_concat]
    by_cases hnode : r = r₀ ∧ c = c₀
    · obtain ⟨rfl, rfl⟩ := hnode
      obtain rfl : on = true := (setEntry_self a.conn r c on).symm.trans hconn
      exact Contact.move_set
    · rw [Contact.move_other (DriverCall.names_set hnode)]
      exact ha.closed r c ((setEntry_ne hnode).symm.trans hconn)
  slots r c := by
    have hp := pending_put (r := r) (c := c) (e := ⟨r₀, c₀, t, true⟩) hi rfl
    rw [contact_concat]
    by_cases hnode : r = r₀ ∧ c = c₀
    · obtain ⟨rfl, rfl⟩ := hnode
      have hpend : (setPulses (a.setConn r c on) (a.pulses.put i ⟨r, c, t, true⟩)).pulses.pending r c = true :=
        hp.mpr (.inl ⟨rfl, rfl⟩)
      rw [Contact.move_set, hpend]
      cases on with
      | true => exact fun hne => absurd rfl hne
      | false => exact fun _ => rfl
    · have hpend : (setPulses (a.setConn r₀ c₀ on) (a.pulses.put i ⟨r₀, c₀, t, true⟩)).pulses.pending r c =
          a.pulses.pending r c :=
        Bool.eq_iff_iff.mpr (hp.trans (or_iff_right hnode))
      rw [Contact.move_other (DriverCall.names_set hnode), hpend]
      exact ha.slots r c

theorem release (ha : Posed cs a) (hd : a.pulses.Distinct) {i : Fin MAX_PULSES} (hi : (a.pulses.get i).on = true) :
    Posed (cs ++ [.releaseNode (a.pulses.get i).r (a.pulses.get i).c]) (a.setPulses (a.pulses.freed i)) where
  type := ha.type
  closed r c hconn := by
    rw [contact_concat, (Contact.move_closed (by simp)).mpr ⟨ha.closed r c hconn, by simp⟩]
  slots r c hne := by
    have hp := hd.pending_freed (r := r) (c := c) hi
    rw [contact_concat] at hne ⊢
    have hbefore : contact cs r c ≠ .closed := fun hclosed => hne ((Contact.move_closed (by simp)).mpr ⟨hclosed, by simp⟩)
    by_cases hnode : r = (a.pulses.get i).r ∧ c = (a.pulses.get i).c
    · have hnot : (a.setPulses (a.pulses.freed i)).pulses.pending r c = false :=
        Bool.eq_false_iff.mpr fun hpend => (hp.mp hpend).1 hnode
      obtain ⟨rfl, rfl⟩ := hnode
      rw [hnot, Contact.move_release, ha.slots _ _ hbefore, pending_iff.mpr ⟨i, names_self hi⟩]
      rfl
    · have hpend : (a.setPulses (a.pulses.freed i)).pulses.pending r c = a.pulses.pending r c :=
        Bool.eq_iff_iff.mpr (hp.trans (and_iff_right hnode))
      rw [Contact.move_other (DriverCall.names_release hnode), hpend]
      exact ha.slots r c hbefore

end Posed

/-- Every event keeps this, a passed-over node too: its bit is cleared, its contact stays closed. -/
theorem Does.posed (h : Does a e b) (hd : a.pulses.Distinct) (ha : Posed cs a) : Posed (cs ++ e.calls) b := by
  cases h with
  | switch ht _ => cases ha.type.symm.trans ht
  | level ht _ => cases ha.type.symm.trans ht
  | pulse _ _ _ _ hi => exact ha.set (.inl hi)
  | repulse _ _ _ hi => exact ha.set (.inr hi)
  | skip => exact ha.congr rfl (fun r c hconn => (conn_setConn_false.mp hconn).2) rfl
  | release _ hi => exact ha.release hd hi
  | commit => exact ha.other fun _ _ => rfl
  | begin => exact ha.other fun _ _ => rfl
  | _ => exact ha.congr rfl (fun _ _ hconn => hconn) rfl

theorem step_posed (hd : a.pulses.Distinct) (hdrv : a.drv.isSome = true) (ha : Posed cs a) (i : Op × Clock) :
    Posed (cs ++ (a.step i).2.calls) (a.step i).1 := by
  obtain ⟨es, h⟩ := step_events hd i
  exact h.keeps hdrv hd ha fun cs s e t hs hds _ hdo => hdo.posed hds hs

/-- `clearAll` resets connected nodes only. -/
theorem clearAll_drives (hv : a.valid = true) (ht : a.type = .latchingDualCoil) (hd : a.pulses.Distinct)
    (h : .setNodeHardware r c v ∈ (a.clearAll millis).2.calls) : v = false ∧ a.conn r c = true := by
  obtain ⟨-, hcalls⟩ := clearAll_ends hv ht hd millis
  rw [hcalls] at h
  rcases List.mem_append.mp (mem_drive h) with h | h
  · obtain ⟨n, hn, heq⟩ := List.mem_map.mp h
    obtain ⟨rfl, rfl, rfl⟩ := DriverCall.setNodeHardware.inj heq
    exact ⟨rfl, (List.mem_filter.mp (List.mem_filter.mp hn).1).2⟩
  · simp at h

end TableXPoint

/-- A stranded node is not commanded to be on. -/
theorem Stranded.uncommanded {log : List ((Op × Clock) × Reply)} {r c : UInt8} (h : Stranded log r c) :
    commanded log r c = 0 := by
  refine Traces.Since.rule (R := fun log => commanded log r c = 0) (fun log e he => ?_) (fun log e hlog he => ?_) h
  · obtain ⟨i, rep⟩ := e
    obtain ⟨op, millis⟩ := i
    obtain rfl : op = .clearAll := he.op
    exact commanded_concat
  · obtain ⟨i, rep⟩ := e
    rw [commanded_concat]
    cases hcmd : i.1.commands r c rep.ret with
    | none => exact hlog
    | some v =>
      have hv : ¬0 < v := fun hv => he ⟨v, hcmd, hv⟩
      rw [UInt16.not_lt] at hv
      exact UInt16.le_zero_iff.mp hv

namespace XPoint
variable {x x' : XPoint} {i : Op × Clock} {rep : Reply} {rows cols r c r₀ c₀ : UInt8} {on v : Bool} {pdur : UInt16}
  {d : DriverRef} {log : List ((Op × Clock) × Reply)}

section Latching
variable (h : x.WellFormed) (hd : x.pulses.Distinct) (hv : x.pool.valid = true) (ht : x.type = .latchingDualCoil)
  (hdrv : x.drv.isSome = true) (hstep : x.step i = some (x', rep))
include h ht hdrv hstep

/-- An operation that asks for a node drives it if it is accepted and finds the node otherwise. -/
theorem mem_calls_asks (hop : i.1.asks = some (r₀, c₀, on)) : .setNodeHardware r c v ∈ rep.calls ↔
    (r = r₀ ∧ c = c₀ ∧ v = on) ∧ rep.ret = some true ∧ x.tables.conn r₀ c₀ ≠ on := by
  have hout := outcome_of_step h hop hstep
  by_cases hret : rep.ret = some true
  · rw [hout.calls hret, TableXPoint.orders_latching hop ht, drive, if_pos hdrv]
    split
    · rename_i hconn
      exact iff_of_false List.not_mem_nil fun hno => hno.2.2 hconn
    · rename_i hconn
      simp [hret, hconn]
  · rw [(hout.refused hret).2.2]
    exact iff_of_false List.not_mem_nil fun hno => hret hno.2.1

include hd hv

/-- A node that is driven open was connected. -/
theorem connected_of_opened (hmem : .setNodeHardware r c false ∈ rep.calls) : x.tables.conn r c = true := by
  cases hop : i.1.asks with
  | some n =>
    obtain ⟨⟨rfl, rfl, hon⟩, -, hconn⟩ := (mem_calls_asks h ht hdrv hstep hop).mp hmem
    rw [← hon] at hconn
    simpa using hconn
  | none =>
    have hrep : (x.tables.step i).2 = rep := congrArg Prod.snd (tables_of_step h hstep).2
    rw [← hrep] at hmem
    by_cases hclear : i.1 = .clearAll
    · obtain ⟨op, millis⟩ := i
      obtain rfl : op = .clearAll := hclear
      exact (TableXPoint.clearAll_drives hv ht hd hmem).2
    · exact absurd hmem ((TableXPoint.step_aside hop hclear).calls r c false)

/-- A node that is driven closed is connected by the operation. -/
theorem connects_of_closed (hmem : .setNodeHardware r c true ∈ rep.calls) : Connects r c (i, rep) := by
  cases hop : i.1.asks with
  | some n =>
    obtain ⟨⟨rfl, rfl, hon⟩, hret, -⟩ := (mem_calls_asks h ht hdrv hstep hop).mp hmem
    obtain ⟨v, hv, hcmd⟩ := Op.commands_asks hop
    exact ⟨v, by rw [hret, hcmd, if_pos ⟨rfl, rfl⟩], of_decide_eq_true (hv.symm.trans hon.symm)⟩
  | none =>
    have hrep : (x.tables.step i).2 = rep := congrArg Prod.snd (tables_of_step h hstep).2
    rw [← hrep] at hmem
    by_cases hclear : i.1 = .clearAll
    · obtain ⟨op, millis⟩ := i
      obtain rfl : op = .clearAll := hclear
      cases (TableXPoint.clearAll_drives hv ht hd hmem).1
    · exact absurd hmem ((TableXPoint.step_aside hop hclear).calls r c true)

omit hd hv in
/-- Any operation but `clearAll` that turns a connected node off drives it open. -/
theorem opened_iff (hclear : i.1 ≠ .clearAll) (hno : ¬Connects r c (i, rep)) (hconn : x.tables.conn r c = true) :
    .setNodeHardware r c false ∈ rep.calls ↔ i.1.commands r c rep.ret ≠ none := by
  cases hop : i.1.asks with
  | some n =>
    obtain ⟨r₀, c₀, on⟩ := n
    rw [mem_calls_asks h ht hdrv hstep hop]
    obtain ⟨v, rfl, hcmd⟩ := Op.commands_asks hop
    by_cases hret : rep.ret = some true
    · rw [hret, hcmd]
      split
      · rename_i hnode
        obtain ⟨rfl, rfl⟩ := hnode
        have hv : decide (0 < v) = false :=
          decide_eq_false fun hpos => hno ⟨v, by rw [hret, hcmd, if_pos ⟨rfl, rfl⟩], hpos⟩
        simp [hv, hconn]
      · rename_i hnode
        exact iff_of_false (fun hmem => hnode ⟨hmem.1.1.symm, hmem.1.2.1.symm⟩) fun hne => hne rfl
    · rw [Op.commands_refused hclear hret]
      exact iff_of_false (fun hmem => hret hmem.2.1) fun hne => hne rfl
  | none =>
    have haside := TableXPoint.step_aside (a := x.tables) hop hclear
    rw [(tables_of_step h hstep).2] at haside
    rw [Op.commands_refused hclear (by rw [haside.ret]; decide)]
    exact iff_of_false (haside.calls r c false) fun hne => hne rfl

end Latching

/-! ### Runs of a latching matrix -/

/-- The contacts are as the log tells. -/
structure Told (rows cols : UInt8) (d : DriverRef) (log : List ((Op × Clock) × Reply)) (x : XPoint) : Prop where
  recorded : Recorded rows cols log x
  drv : x.drv = some d
  posed : TableXPoint.Posed (driverCalls log) x.tables
  contacts : ∀ r c, r < rows → c < cols →
    (contact (driverCalls log) r c = .closed ↔ 0 < commanded log r c ∨ Stranded log r c)

theorem driverCalls_concat : driverCalls (log ++ [(i, rep)]) = driverCalls log ++ rep.calls := Traces.flatMap_concat

/-- A node that an operation does not connect is asked for afterwards if it was before and is not commanded off. -/
theorem commanded_pos (hcon : ¬Connects r c (i, rep)) :
    0 < commanded (log ++ [(i, rep)]) r c ↔ 0 < commanded log r c ∧ i.1.commands r c rep.ret = none := by
  rw [commanded_concat]
  cases hcmd : i.1.commands r c rep.ret with
  | none => exact (and_iff_left rfl).symm
  | some v => exact iff_of_false (fun hv => hcon ⟨v, hcmd, hv⟩) fun h => Option.some_ne_none v h.2

/-- The contact of one node over one operation. -/
theorem Told.contact (h : Told rows cols d log x) (hr : r < rows) (hc : c < cols) (hstep : x.step i = some (x', rep))
    (hrec : Recorded rows cols (log ++ [(i, rep)]) x')
    (hposed : TableXPoint.Posed (driverCalls (log ++ [(i, rep)])) x'.tables) :
    Crosspoint.contact (driverCalls (log ++ [(i, rep)])) r c = .closed ↔
      0 < commanded (log ++ [(i, rep)]) r c ∨ Stranded (log ++ [(i, rep)]) r c := by
  have hwf := h.recorded.wf
  have hv := h.recorded.pool hr
  have ht : x.type = .latchingDualCoil := h.posed.type
  have hdrv : x.drv.isSome = true := by
    rw [h.drv]
    rfl
  have hconn : x.tables.conn r c = true ↔ 0 < commanded log r c := by
    rw [h.recorded.bits r c hr hc, decide_eq_true_iff]
  have hcommanded : commanded (log ++ [(i, rep)]) r c = (i.1.commands r c rep.ret).getD (commanded log r c) :=
    commanded_concat
  rw [Stranded, Traces.since_concat]
  by_cases hcon : Connects r c (i, rep)
  · obtain ⟨v, hcmd, hpos⟩ := hcon
    have hon : 0 < commanded (log ++ [(i, rep)]) r c := by
      rw [hcommanded, hcmd]
      exact hpos
    have hconn' : x'.tables.conn r c = true := by
      rw [hrec.bits r c hr hc, decide_eq_true hon]
    exact iff_of_true (hposed.closed r c hconn') (.inl hon)
  · have hon : .setNodeHardware r c true ∉ rep.calls := fun hmem =>
      hcon (connects_of_closed hwf h.recorded.distinct hv ht hdrv hstep hmem)
    have hwas : .setNodeHardware r c false ∈ rep.calls → 0 < commanded log r c := fun hmem =>
      hconn.mp (connected_of_opened hwf h.recorded.distinct hv ht hdrv hstep hmem)
    have hstill : Stranded log r c → ¬0 < commanded log r c := fun hstr hpos => by
      rw [hstr.uncommanded] at hpos
      exact absurd hpos (by decide)
    rw [driverCalls_concat, closed_append hon, h.contacts r c hr hc, and_iff_left hcon]
    by_cases hclear : i.1 = .clearAll
    · -- The bit is cleared; the contact opens if the node is driven, and is left closed otherwise.
      have hoff : ¬0 < commanded (log ++ [(i, rep)]) r c := by
        rw [hcommanded, hclear]
        exact Nat.lt_irrefl 0
      have hpass : PassesOver r c log (i, rep) ↔ 0 < commanded log r c ∧ .setNodeHardware r c false ∉ rep.calls :=
        ⟨fun hp => ⟨hp.connected, hp.undriven⟩, fun hp => ⟨hclear, hp.1, hp.2⟩⟩
      rw [hpass]
      change _ ↔ _ ∨ _ ∨ Stranded log r c
      tauto
    · -- A connected node is turned off and driven open, or left as it is.
      have hpass : ¬PassesOver r c log (i, rep) := fun hp => hclear hp.op
      have hkeep : 0 < commanded (log ++ [(i, rep)]) r c ↔ 0 < commanded log r c ∧
          .setNodeHardware r c false ∉ rep.calls := by
        rw [commanded_pos hcon]
        refine and_congr_right fun hpos => ?_
        rw [opened_iff hwf ht hdrv hstep hclear hcon (hconn.mpr hpos), not_ne_iff]
      change _ ↔ _ ∨ _ ∨ Stranded log r c
      tauto

theorem Told.step (h : Told rows cols d log x) (hi : i.1.KeepsDriver d) :
    ∃ x' rep, x.step i = some (x', rep) ∧ Told rows cols d (log ++ [(i, rep)]) x' := by
  obtain ⟨x', rep, hstep, -, htab⟩ := step_matches h.recorded.wf i
  have hx' : (x.tables.step i).1 = x'.tables := congrArg Prod.fst htab
  have hrep : (x.tables.step i).2 = rep := congrArg Prod.snd htab
  have hd : x.tables.pulses.Distinct := h.recorded.distinct
  have hdrv : x.tables.drv = some d := h.drv
  have hrec := h.recorded.step hstep
  have hposed := TableXPoint.step_posed hd (by rw [hdrv]; rfl) h.posed i
  have hdrv' := TableXPoint.step_drv hd hdrv hi
  rw [hx', hrep, ← driverCalls_concat] at hposed
  rw [hx'] at hdrv'
  exact ⟨x', rep, hstep, hrec, hdrv', hposed, fun r c hr hc => h.contact hr hc hstep hrec hposed⟩

theorem Attached.told (h : Attached rows cols .latchingDualCoil pdur d x) : Told rows cols d [] x := by
  obtain ⟨y, hy, rfl⟩ := h
  have hrec := hy.recorded
  have htab : y.tables = TableXPoint.init rows cols .latchingDualCoil pdur y.pool.valid := hy.spec.2
  have htype : y.type = .latchingDualCoil := congrArg TableXPoint.type htab
  have hblank : y.tables.Blank := htab ▸ TableXPoint.blank_init
  refine ⟨⟨⟨hrec.wf.bits, hrec.wf.words, hrec.wf.sound⟩, hrec.distinct, hrec.height, hrec.width, hrec.valid, hrec.bits⟩,
    rfl, ⟨htype, fun r c hconn => ?_, fun r c _ => ?_⟩, fun r c _ _ => ?_⟩
  · cases hconn.symm.trans (hblank.conn r c)
  · have hpending : y.pulses.pending r c = false := by
      rw [show y.pulses = PulseTable.init from hblank.pulses]
      exact TableXPoint.pending_init
    change _ = TableXPoint.standing false (y.pulses.pending r c)
    rw [hpending]
    rfl
  · exact iff_of_false (show Contact.opened ≠ .closed by decide) fun hno =>
      hno.elim (show ¬(0 : UInt16) < 0 by decide) Traces.not_since_nil

/-- In every run of a latching matrix, with or without slots for its sweeps, the contact of a node is closed exactly if
    the last accepted operation for it commands it on, or a `clearAll` passed it over and none has connected it since;
    a contact that is not closed is opening while the slot of its node is in use, and open after that. -/
theorem run_told (h : Attached rows cols .latchingDualCoil pdur d x) {ops : List (Op × Clock)}
    (hops : ∀ i ∈ ops, i.1.KeepsDriver d) : ∃ x' log, x.run ops = some (x', log) ∧ ∀ r c, r < rows → c < cols →
      (contact (driverCalls log) r c = .closed ↔ 0 < commanded log r c ∨ Stranded log r c) ∧
        (contact (driverCalls log) r c ≠ .closed →
          contact (driverCalls log) r c = if x'.pulses.pending r c then .opening else .opened) := by
  obtain ⟨x', log, hrun, hend⟩ := Machine.run_rule (I := Told rows cols d) (fun _ _ _ hx hi => hx.step hi) h.told
    (Machine.Along.of_forall fun i hi _ => hops i hi)
  refine ⟨x', log, hrun, fun r c hr hc => ⟨hend.contacts r c hr hc, fun hne => (hend.posed.slots r c hne).trans ?_⟩⟩
  change TableXPoint.standing false (x'.pulses.pending r c) = _
  cases x'.pulses.pending r c <;> rfl

/-- Nine connected nodes and eight slots: the sweep passes the last node over, and its contact stays closed. -/
theorem run_told_three_by_three :
    let ops : List (Op × Clock) := [(.connect 0 0, fun _ => 0), (.connect 0 1, fun _ => 0), (.connect 0 2, fun _ => 0),
      (.connect 1 0, fun _ => 0), (.connect 1 1, fun _ => 0), (.connect 1 2, fun _ => 0), (.connect 2 0, fun _ => 0),
      (.connect 2 1, fun _ => 0), (.update, fun _ => 6), (.connect 2 2, fun _ => 6), (.update, fun _ => 12),
      (.clearAll, fun _ => 13), (.update, fun _ => 19), (.disconnect 2 2, fun _ => 20)]
    ∃ x, Attached 3 3 .latchingDualCoil 5 0 x ∧ ∃ x' log, x.run ops = some (x', log) ∧
      contact (driverCalls log) 2 2 = .closed ∧ commanded log 2 2 = 0 ∧ ∀ r c, r < 3 → c < 3 →
        (contact (driverCalls log) r c = .closed ↔ 0 < commanded log r c ∨ Stranded log r c) ∧
          (contact (driverCalls log) r c ≠ .closed →
            contact (driverCalls log) r c = if x'.pulses.pending r c then .opening else .opened) := by
  intro ops
  have hends : ((heap 3 3 .latchingDualCoil 5).bind fun y => ((y.setDriver (some 0)).1.run ops).map fun p =>
      (contact (driverCalls p.2) 2 2, commanded p.2 2 2)) = some (.closed, 0) := by
    decide +kernel
  obtain ⟨y, x', log, hy, hrun, hends⟩ := Machine.run_of_bind hends
  have hx : Attached 3 3 .latchingDualCoil 5 0 (y.setDriver (some 0)).1 := ⟨y, .heap hy, rfl⟩
  obtain ⟨z, log', hrun', htold⟩ := run_told hx (show ∀ i ∈ ops, i.1.KeepsDriver 0 by simp [ops, Op.KeepsDriver])
  obtain ⟨rfl, rfl⟩ := Prod.mk.inj (Option.some.inj (hrun'.symm.trans hrun))
  obtain ⟨hclosed, hcommanded⟩ := Prod.mk.inj hends
  exact ⟨_, hx, z, log', hrun, hclosed, hcommanded, htold⟩

end XPoint

end Crosspoint
