import Crosspoint.Rig
import Crosspoint.Theorems.Outputs
import Crosspoint.Theorems.TLC59711

/-! PWM commands end to end: the bit of a node says whether its channel is on, the driver holds the level that
    was commanded last, and the packet carries it. The one exception is `connect` on a dimmed node, whose bit is
    set already: it returns true and leaves the level as it is. -/

namespace Crosspoint
open Loops

/-! ### The driver -/

namespace TLC59711Driver
variable {nChips : UInt8} {d d' : TLC59711Driver nChips} {ds : List DriverCall} {call : DriverCall} {c v : UInt16}

/-- The packet decodes to the channel values. -/
def Packed (d : TLC59711Driver nChips) : Prop := ∀ ch < nChips.toNat * 12, decode nChips.toNat d.pkt.toList ch = d.value ch

theorem handle_target (h : Call.target d.map (.driver call) = some (c, v)) : d.handle call = some (d.setPWM c v) := by
  cases call with
  | setNodeHardware r c' state =>
    obtain ⟨rfl, rfl⟩ := Prod.mk.inj (Option.some.inj h)
    rfl
  | setNodeLevel r c' level =>
    obtain ⟨rfl, rfl⟩ := Prod.mk.inj (Option.some.inj h)
    rfl
  | _ => cases h

theorem commit_packed (h : nChips ≤ 128) (hcommit : d.commitPhysicalUpdates = some d') : Packed d' := by
  obtain ⟨pkt, hcommit', hpkt⟩ := commit_chain (d := d) h
  obtain rfl := Option.some.inj (hcommit'.symm.trans hcommit)
  intro ch hch
  change decode nChips.toNat pkt.toList ch = d.value ch
  rw [hpkt]
  exact decode_chainBytes hch

end TLC59711Driver

/-! ### Bits and levels -/

/-- Driver `d` holds the levels of the nodes of `a`: a bit says whether the level is not 0. -/
structure Lit {nChips : UInt8} (rows cols : UInt8) (map : UInt8 → UInt8 → UInt16) (a : TableXPoint)
    (d : TLC59711Driver nChips) : Prop where
  height : a.rows = rows
  width : a.cols = cols
  type : a.type = .nonLatching
  mapper : d.map = map
  bits : ∀ r c, r < rows → c < cols → a.conn r c = decide (0 < d.pwm (map r c))

section Lit
open TLC59711Driver TableXPoint
variable {nChips rows cols : UInt8} {map : UInt8 → UInt8 → UInt16} {a b : TableXPoint} {d d' : TLC59711Driver nChips}
  {call : DriverCall} {r c r₀ c₀ : UInt8} {v : UInt16} {e : Event}

theorem Wired.levels (hw : Wired nChips rows cols map) (hr₀ : r₀ < rows) (hc₀ : c₀ < cols) (hr : r < rows) (hc : c < cols) :
    (d.setPWM (map r₀ c₀) v).pwm (map r c) = if r₀ = r ∧ c₀ = c then v else d.pwm (map r c) := by
  rw [pwm_setPWM (hw.inside r c hr hc)]
  by_cases hnode : r₀ = r ∧ c₀ = c
  · rw [if_pos hnode, hnode.1, hnode.2, if_pos rfl]
  · rw [if_neg hnode, if_neg fun heq => hnode (hw.apart r₀ c₀ r c hr₀ hc₀ hr hc heq)]

theorem Lit.set (hw : Wired nChips rows cols map) (h : Lit rows cols map a d) (hr₀ : r₀ < rows) (hc₀ : c₀ < cols)
    (hcall : Call.target map (.driver call) = some (map r₀ c₀, v)) :
    ∃ d', d.handle call = some d' ∧ Lit rows cols map (a.setConn r₀ c₀ (decide (0 < v))) d' := by
  have hcall : Call.target d.map (.driver call) = some (map r₀ c₀, v) := by
    rw [h.mapper]
    exact hcall
  refine ⟨_, handle_target hcall, h.height, h.width, h.type, map_setPWM.trans h.mapper, fun r c hr hc => ?_⟩
  rw [hw.levels hr₀ hc₀ hr hc]
  simp only [setConn, setEntry, eq_comm (a := r₀), eq_comm (a := c₀)]
  split
  · rfl
  · exact h.bits r c hr hc

theorem target_set {on : Bool} : Call.target map (.driver (.setNodeHardware r c on)) =
    some (map r c, if on then 0xFFFF else 0) := rfl

theorem target_level : Call.target map (.driver (.setNodeLevel r c v)) = some (map r c, v) := rfl

theorem full_pos {on : Bool} : decide ((0 : UInt16) < if on then 0xFFFF else 0) = on := by
  cases on <;> rfl

theorem Lit.commit (hw : Wired nChips rows cols map) (h : Lit rows cols map a d) :
    ∃ d', d.commitPhysicalUpdates = some d' ∧ Lit rows cols map a d' := by
  obtain ⟨pkt, hcommit, -⟩ := commit_chain (d := d) hw.chips
  exact ⟨_, hcommit, h.height, h.width, h.type, h.mapper, h.bits⟩

/-- An event keeps bits and levels in step. -/
theorem TableXPoint.Does.lit (hdo : Does a e b) (hw : Wired nChips rows cols map) (h : Lit rows cols map a d) :
    ∃ d', e.calls.foldlM handle d = some d' ∧ Lit rows cols map b d' := by
  cases hdo with
  | @switch r c on ht hallows =>
    have hcall : Call.target map (.driver (.setNodeHardware r c on)) = some (map r c, if on then 0xFFFF else 0) :=
      target_set
    obtain ⟨d', hcall, hlit⟩ := h.set hw (h.height ▸ hallows.row) (h.width ▸ hallows.col) hcall
    rw [full_pos] at hlit
    exact ⟨d', by rw [Event.calls, List.foldlM_cons, hcall]; rfl, hlit⟩
  | level ht hallows =>
    obtain ⟨d', hcall, hlit⟩ := h.set hw (h.height ▸ hallows.row) (h.width ▸ hallows.col) target_level
    exact ⟨d', by rw [Event.calls, List.foldlM_cons, hcall]; rfl, hlit⟩
  | pulse ht => cases ht.symm.trans h.type
  | repulse ht => cases ht.symm.trans h.type
  | skip ht => cases ht.symm.trans h.type
  | release ht => cases ht.symm.trans h.type
  | commit =>
    obtain ⟨d', hcommit, hlit⟩ := h.commit hw
    exact ⟨d', by rw [Event.calls, List.foldlM_cons, handle, hcommit]; rfl, hlit⟩
  | _ => exact ⟨d, rfl, h.height, h.width, h.type, h.mapper, h.bits⟩

theorem step_lit (hw : Wired nChips rows cols map) (h : Lit rows cols map a d) (hdrv : a.drv.isSome = true)
    (hd : a.pulses.Distinct) (i : Op × Clock) :
    ∃ d', (a.step i).2.calls.foldlM handle d = some d' ∧ Lit rows cols map (a.step i).1 d' := by
  obtain ⟨es, hes⟩ := step_events hd i
  let J (cs : List DriverCall) (s : TableXPoint) : Prop := ∃ d', cs.foldlM handle d = some d' ∧ Lit rows cols map s d'
  refine hes.keeps (J := J) hdrv hd (show J [] a from ⟨d, rfl, h⟩) fun cs s e t ⟨d₁, hcs, hlit⟩ _ _ hdo => ?_
  obtain ⟨d₂, he, hlit⟩ := hdo.lit hw hlit
  exact ⟨d₂, by rw [List.foldlM_append, hcs]; exact he, hlit⟩

theorem Committed.packed {ds : List DriverCall} (hds : Committed ds) (hn : nChips ≤ 128) (hd : Packed d)
    (hrun : ds.foldlM handle d = some d') : Packed d' := by
  cases hds with
  | none =>
    obtain rfl := Option.some.inj hrun
    exact hd
  | begin =>
    obtain rfl := Option.some.inj hrun
    exact hd
  | commit ds =>
    rw [List.foldlM_append] at hrun
    obtain ⟨d₁, -, hlast⟩ := Option.bind_eq_some_iff.mp hrun
    rw [List.foldlM_cons] at hlast
    obtain ⟨d₂, hcommit, hnil⟩ := Option.bind_eq_some_iff.mp hlast
    obtain rfl := Option.some.inj hnil
    exact commit_packed hn hcommit

theorem driven_levels (hw : Wired nChips rows cols map) (h : Lit rows cols map a d) (hr₀ : r₀ < rows) (hc₀ : c₀ < cols)
    (hcall : Call.target map (.driver call) = some (map r₀ c₀, v))
    (hrun : [call, .commitPhysicalUpdates].foldlM handle d = some d') (hr : r < rows) (hc : c < cols) :
    d'.pwm (map r c) = if r₀ = r ∧ c₀ = c then v else d.pwm (map r c) := by
  have hcall : Call.target d.map (.driver call) = some (map r₀ c₀, v) := by
    rw [h.mapper]
    exact hcall
  obtain ⟨pkt, hcommit, -⟩ := commit_chain (d := d.setPWM (map r₀ c₀) v) hw.chips
  have hrun' : [call, .commitPhysicalUpdates].foldlM handle d = some { d.setPWM (map r₀ c₀) v with pkt := pkt } := by
    rw [List.foldlM_cons, handle_target hcall]
    exact congrArg (Option.bind · fun d => some d) hcommit
  obtain rfl := Option.some.inj (hrun'.symm.trans hrun)
  exact hw.levels hr₀ hc₀ hr hc

end Lit

/-! ### The operations of a non-latching matrix -/

namespace TableXPoint
variable {a : TableXPoint} {millis : Clock} {row col r c : UInt8} {level : UInt16}

theorem drive_some (hdrv : a.drv.isSome = true) (cs : List DriverCall) : a.drive cs = cs := if_pos hdrv

theorem switchNode_nonLatching {on : Bool} (ht : a.type = .nonLatching) (hdrv : a.drv.isSome = true) :
    a.switchNode millis row col on =
      (a.setConn row col on, ⟨some true, [.setNodeHardware row col on, .commitPhysicalUpdates]⟩) := by
  rw [switchNode, ht, drive_some hdrv]

theorem connect_cases (millis : Clock) (row col : UInt8) (ht : a.type = .nonLatching) (hdrv : a.drv.isSome = true) :
    a.connect millis row col = (a, ⟨some false, []⟩) ∨
    row < a.rows ∧ col < a.cols ∧ a.blocked row col = false ∧
      (a.conn row col = true ∧ a.connect millis row col = (a, ⟨some true, []⟩) ∨
        a.connect millis row col =
          (a.setConn row col true, ⟨some true, [.setNodeHardware row col true, .commitPhysicalUpdates]⟩)) := by
  unfold connect
  split
  · exact .inl rfl
  · rename_i hin
    obtain ⟨-, hr, hc⟩ := inside hin
    split
    · exact .inl rfl
    · rename_i hb
      refine .inr ⟨hr, hc, by simpa using hb, ?_⟩
      split
      · rename_i hconn
        exact .inl ⟨hconn, rfl⟩
      · exact .inr (switchNode_nonLatching ht hdrv)

theorem disconnect_cases (millis : Clock) (row col : UInt8) (ht : a.type = .nonLatching) (hdrv : a.drv.isSome = true) :
    a.disconnect millis row col = (a, ⟨some false, []⟩) ∨
    row < a.rows ∧ col < a.cols ∧
      (a.conn row col = false ∧ a.disconnect millis row col = (a, ⟨some true, []⟩) ∨
        a.disconnect millis row col =
          (a.setConn row col false, ⟨some true, [.setNodeHardware row col false, .commitPhysicalUpdates]⟩)) := by
  unfold disconnect
  split
  · exact .inl rfl
  · rename_i hin
    obtain ⟨-, hr, hc⟩ := inside hin
    refine .inr ⟨hr, hc, ?_⟩
    split
    · rename_i hconn
      exact .inl ⟨by simpa using hconn, rfl⟩
    · exact .inr (switchNode_nonLatching ht hdrv)

theorem connect_again (hv : a.valid = true) (hr : row < a.rows) (hc : col < a.cols) (hb : a.blocked row col = false)
    (hconn : a.conn row col = true) : a.connect millis row col = (a, ⟨some true, []⟩) := by
  have hin : (!a.valid || decide (row ≥ a.rows) || decide (col ≥ a.cols)) = false := by
    simp only [hv, Bool.not_true, Bool.false_or, Bool.or_eq_false_iff, decide_eq_false_iff_not, ge_iff_le, UInt8.not_le]
    exact ⟨hr, hc⟩
  rw [connect, hin, if_neg Bool.false_ne_true, hb, if_neg Bool.false_ne_true, if_pos hconn]

theorem setLevel_cases (millis : Clock) (row col : UInt8) (level : UInt16) (ht : a.type = .nonLatching)
    (hdrv : a.drv.isSome = true) : a.setLevel millis row col level = (a, ⟨some false, []⟩) ∨
    row < a.rows ∧ col < a.cols ∧ a.setLevel millis row col level =
      (a.setConn row col (decide (level > 0)), ⟨some true, [.setNodeLevel row col level, .commitPhysicalUpdates]⟩) := by
  unfold setLevel
  dsimp only
  split
  · exact .inl rfl
  · rename_i hin
    obtain ⟨-, hr, hc⟩ := inside hin
    split
    · exact .inl rfl
    · refine .inr ⟨hr, hc, ?_⟩
      rw [ht, drive_some hdrv]

theorem clearNode_conn {now : UInt32} {s : TableXPoint × List DriverCall} :
    (clearNode now r c s).1.conn = setEntry s.1.conn r c false := by
  unfold clearNode
  dsimp only
  split
  · rename_i hoff
    exact (setEntry_same (by simpa using hoff)).symm
  · split
    · split <;> rfl
    · rfl

theorem clearAll_conn (hv : a.valid = true) (hr : r < a.rows) (hc : c < a.cols) :
    (a.clearAll millis).1.conn r c = false := by
  have hkeep : ∀ now r' c' (s : TableXPoint × List DriverCall), s.1.conn r c = false →
      (clearNode now r' c' s).1.conn r c = false := fun now r' c' s hs => by
    rw [clearNode_conn, setEntry]
    split
    · rfl
    · exact hs
  let Q (s : TableXPoint × List DriverCall) : Prop := s.1.conn r c = false
  unfold clearAll
  rw [hv]
  refine foldl_visits (Q := Q) (fun s => ?_) (fun s r' hs => ?_) (mem_below.mpr hr)
  · refine foldl_visits (Q := Q) (fun s => ?_) (fun s c' => hkeep _ _ c' s) (mem_below.mpr hc)
    change (clearNode _ r c s).1.conn r c = false
    rw [clearNode_conn, setEntry_self]
  · exact List.foldlRecOn (motive := Q) _ _ hs fun s hs c' _ => hkeep _ r' c' s hs

end TableXPoint

section Lit
open TLC59711Driver TableXPoint
variable {nChips rows cols : UInt8} {map : UInt8 → UInt8 → UInt16} {a : TableXPoint} {d d' : TLC59711Driver nChips}
  {r c row col : UInt8} {level : UInt16} {millis : Clock}

theorem Lit.on (h : Lit rows cols map a d) (hr : r < rows) (hc : c < cols) (hconn : a.conn r c = true) :
    0 < d.pwm (map r c) := by
  rw [h.bits r c hr hc] at hconn
  exact of_decide_eq_true hconn

theorem Lit.off (h : Lit rows cols map a d) (hr : r < rows) (hc : c < cols) (hconn : a.conn r c = false) :
    d.pwm (map r c) = 0 := by
  rw [h.bits r c hr hc] at hconn
  have hpos := of_decide_eq_false hconn
  rw [UInt16.lt_iff_toNat_lt, UInt16.toNat_zero] at hpos
  exact UInt16.toNat_inj.mp (show (d.pwm (map r c)).toNat = 0 by omega)

theorem Lit.full (h : Lit rows cols map a d) (hr : r < rows) (hc : c < cols) (hconn : a.conn r c = true)
    (hdim : ¬d.Dimmed (map r c)) : d.pwm (map r c) = 0xFFFF := by
  have hle : ¬(d.pwm (map r c)).toNat < 65535 := fun hlt => hdim ⟨h.on hr hc hconn, UInt16.lt_iff_toNat_lt.mpr hlt⟩
  have hlt := (d.pwm (map r c)).toNat_lt
  exact UInt16.toNat_inj.mp (show (d.pwm (map r c)).toNat = 65535 by omega)

/-- The replies to an operation that commands value `v` for node `(r₀, c₀)`: it is refused, it finds the value
    there already, or it drives the node. -/
inductive Outcome (rows cols : UInt8) (map : UInt8 → UInt8 → UInt16) (d : TLC59711Driver nChips) (r₀ c₀ : UInt8)
    (v : UInt16) : Reply → Prop
  | refused : Outcome rows cols map d r₀ c₀ v ⟨some false, []⟩
  | kept (hr : r₀ < rows) (hc : c₀ < cols) (hv : d.pwm (map r₀ c₀) = v) : Outcome rows cols map d r₀ c₀ v ⟨some true, []⟩
  | driven {call : DriverCall} (hr : r₀ < rows) (hc : c₀ < cols)
    (hcall : Call.target map (.driver call) = some (map r₀ c₀, v)) :
    Outcome rows cols map d r₀ c₀ v ⟨some true, [call, .commitPhysicalUpdates]⟩

theorem Outcome.levels {op : Op} {rep : Reply} {r₀ c₀ : UInt8} {v : UInt16} (ho : Outcome rows cols map d r₀ c₀ v rep)
    (hw : Wired nChips rows cols map) (h : Lit rows cols map a d)
    (htrue : op.commands r c (some true) = if r₀ = r ∧ c₀ = c then some v else none)
    (hfalse : op.commands r c (some false) = none) (hrun : rep.calls.foldlM handle d = some d') (hr : r < rows)
    (hc : c < cols) :
    d'.pwm (map r c) = (op.commands r c rep.ret).getD (d.pwm (map r c)) := by
  cases ho with
  | refused =>
    obtain rfl := Option.some.inj hrun
    rw [hfalse]
    rfl
  | kept _ _ hv =>
    obtain rfl := Option.some.inj hrun
    rw [htrue]
    split
    · rename_i hnode
      rw [← hnode.1, ← hnode.2]
      exact hv
    · rfl
  | driven hr₀ hc₀ hcall =>
    rw [driven_levels hw h hr₀ hc₀ hcall hrun hr hc, htrue]
    split <;> rfl

theorem connect_outcome (h : Lit rows cols map a d) (hdrv : a.drv.isSome = true)
    (hun : row < rows → col < cols → a.blocked row col = false → ¬d.Dimmed (map row col)) :
    Outcome rows cols map d row col 0xFFFF (a.connect millis row col).2 := by
  have hcases := connect_cases millis row col h.type hdrv
  rw [h.height, h.width] at hcases
  rcases hcases with hcase | ⟨hrow, hcol, hb, ⟨hconn, hcase⟩ | hcase⟩ <;> rw [hcase]
  · exact .refused
  · exact .kept hrow hcol (h.full hrow hcol hconn (hun hrow hcol hb))
  · exact .driven hrow hcol target_set

theorem disconnect_outcome (h : Lit rows cols map a d) (hdrv : a.drv.isSome = true) :
    Outcome rows cols map d row col 0x0000 (a.disconnect millis row col).2 := by
  have hcases := disconnect_cases millis row col h.type hdrv
  rw [h.height, h.width] at hcases
  rcases hcases with hcase | ⟨hrow, hcol, ⟨hconn, hcase⟩ | hcase⟩ <;> rw [hcase]
  · exact .refused
  · exact .kept hrow hcol (h.off hrow hcol hconn)
  · exact .driven hrow hcol target_set

theorem setLevel_outcome (h : Lit rows cols map a d) (hdrv : a.drv.isSome = true) :
    Outcome rows cols map d row col level (a.setLevel millis row col level).2 := by
  have hcases := setLevel_cases millis row col level h.type hdrv
  rw [h.height, h.width] at hcases
  rcases hcases with hcase | ⟨hrow, hcol, hcase⟩ <;> rw [hcase]
  · exact .refused
  · exact .driven hrow hcol target_level

/-- After an operation each node has the level that it commands, or the one from before: unless it is a
    `connect` on a dimmed node. -/
theorem step_levels (hw : Wired nChips rows cols map) (h : Lit rows cols map a d) (hdrv : a.drv.isSome = true)
    (hv : a.valid = true ∨ rows = 0) {i : Op × Clock}
    (hun : ∀ row col, i.1 = .connect row col → row < rows → col < cols → a.blocked row col = false →
      ¬d.Dimmed (map row col))
    (hrun : (a.step i).2.calls.foldlM handle d = some d') (h' : Lit rows cols map (a.step i).1 d') (hr : r < rows)
    (hc : c < cols) :
    d'.pwm (map r c) = (i.1.commands r c (a.step i).2.ret).getD (d.pwm (map r c)) := by
  obtain ⟨op, millis⟩ := i
  have hidle : (a.step (op, millis)).2.calls = [] → d' = d := fun hcalls => by
    rw [hcalls] at hrun
    exact (Option.some.inj hrun).symm
  cases op with
  | connect row col => exact (connect_outcome h hdrv (hun row col rfl)).levels hw h rfl rfl hrun hr hc
  | disconnect row col => exact (disconnect_outcome h hdrv).levels hw h rfl rfl hrun hr hc
  | setLevel row col level => exact (setLevel_outcome h hdrv).levels hw h rfl rfl hrun hr hc
  | clearAll =>
    have hv : a.valid = true := hv.resolve_right fun h0 => by
      rw [h0] at hr
      exact absurd hr (by simp [UInt8.lt_iff_toNat_lt])
    exact h'.off hr hc (clearAll_conn hv (h.height ▸ hr) (h.width ▸ hc))
  | begin =>
    have hcalls : (a.step (.begin, millis)).2.calls = [.begin] := drive_some hdrv _
    rw [hcalls] at hrun
    obtain rfl := Option.some.inj hrun
    rfl
  | update =>
    have hupdate : a.step (.update, millis) = (a, ⟨none, []⟩) := if_pos (by rw [h.type]; decide)
    rw [hidle (by rw [hupdate]), hupdate]
    rfl
  | setDriver drv =>
    rw [hidle rfl]
    rfl
  | lockRows rowA rowB =>
    have hcalls : (a.lockRows rowA rowB).2.calls = [] := by
      unfold TableXPoint.lockRows
      split <;> rfl
    rw [hidle hcalls]
    rfl
  | exclusiveInput col =>
    have hcalls : (a.exclusiveInput col).2.calls = [] := by
      unfold TableXPoint.exclusiveInput
      split <;> rfl
    rw [hidle hcalls]
    rfl

end Lit

/-! ### Runs -/

section Commanded
variable {log : List ((Op × Clock) × Reply)} {i : Op × Clock} {rep : Reply} {r c : UInt8}

theorem commanded_concat : commanded (log ++ [(i, rep)]) r c = (i.1.commands r c rep.ret).getD (commanded log r c) := by
  simp only [commanded, List.filterMap_append, List.filterMap_cons, List.filterMap_nil]
  cases i.1.commands r c rep.ret with
  | none =>
    rw [List.append_nil]
    rfl
  | some v =>
    rw [List.getLast?_concat]
    rfl

end Commanded

namespace Rig
open TLC59711Driver
variable {nChips rows cols : UInt8} {map : UInt8 → UInt8 → UInt16} {ref : DriverRef} {s t : Rig nChips}
  {log : List ((Op × Clock) × Reply)} {i : Op × Clock} {r c row col : UInt8} {pdur : UInt16} {x : XPoint}
  {ops : List (Op × Clock)}

/-- What holds of a rig in every run. -/
structure Steady (rows cols : UInt8) (map : UInt8 → UInt8 → UInt16) (ref : DriverRef) (s : Rig nChips) : Prop where
  wf : s.matrix.WellFormed
  distinct : s.matrix.pulses.Distinct
  driven : s.matrix.drv = some ref
  valid : s.matrix.pool.valid = true ∨ rows = 0
  lit : Lit rows cols map s.matrix.tables s.driver
  packed : Packed s.driver

theorem Steady.shown (hw : Wired nChips rows cols map) (h : Steady rows cols map ref s) (hr : r < rows) (hc : c < cols) :
    s.shown r c = s.driver.pwm (map r c) := by
  have hin : (map r c).toNat < nChips.toNat * 12 := by
    rw [← toNat_nCh]
    exact UInt16.lt_iff_toNat_lt.mp (hw.inside r c hr hc)
  rw [Rig.shown, h.lit.mapper, h.packed _ hin, value, UInt16.ofNat_toNat]

/-- A step of a rig is the step of the tables, with the driver taking its calls. -/
theorem Steady.step (hw : Wired nChips rows cols map) (h : Steady rows cols map ref s) (hi : i.1.KeepsDriver ref) :
    ∃ t, s.step i = some (t, (s.matrix.tables.step i).2) ∧ Steady rows cols map ref t ∧
      t.matrix.tables = (s.matrix.tables.step i).1 ∧
      (s.matrix.tables.step i).2.calls.foldlM handle s.driver = some t.driver := by
  have hd : s.matrix.tables.pulses.Distinct := h.distinct
  have hdriven : s.matrix.tables.drv = some ref := h.driven
  have hdrv : s.matrix.tables.drv.isSome = true := by
    rw [hdriven]
    rfl
  obtain ⟨y, rep, hy, hwf, ht⟩ := XPoint.step_matches h.wf i
  obtain ⟨d', hrun, hlit⟩ := step_lit hw h.lit hdrv hd i
  have hpacked := (TableXPoint.step_committed hdrv i).packed hw.chips h.packed hrun
  have hdistinct := TableXPoint.step_distinct hd i
  have hdriven := TableXPoint.step_drv hd hdriven hi
  have hvalid := TableXPoint.step_valid hd i
  rw [ht] at hrun hlit hdistinct hdriven hvalid
  rw [ht]
  refine ⟨⟨y, d'⟩, ?_, ⟨hwf, hdistinct, hdriven, ?_, hlit, hpacked⟩, rfl, hrun⟩
  · have hcalls : rep.calls.foldlM handle s.driver = some d' := hrun
    simp only [Rig.step, hy, Option.bind_eq_bind, Option.bind_some, hcalls]
    rfl
  · rw [show y.pool.valid = s.matrix.pool.valid from hvalid]
    exact h.valid

theorem steady_start (h : XPoint.Attached rows cols .nonLatching pdur ref x) :
    Steady rows cols map ref ⟨x, .new nChips map⟩ := by
  obtain ⟨hwf, hd, valid, ht⟩ := h.spec
  refine ⟨hwf, hd, congrArg TableXPoint.drv ht, h.valid, ?_, fun ch _ => ?_⟩
  · change Lit rows cols map x.tables (new nChips map)
    rw [ht]
    refine ⟨rfl, rfl, rfl, rfl, fun r c _ _ => ?_⟩
    rw [pwm_new]
    rfl
  · exact decode_blank.trans pwm_new.symm

theorem run_steady (hw : Wired nChips rows cols map) (h : Steady rows cols map ref s)
    (hops : ∀ i ∈ ops, i.1.KeepsDriver ref) : ∃ t log, s.run ops = some (t, log) ∧ Steady rows cols map ref t :=
  Machine.run_inv (fun _ _ hs hi => let ⟨t, hst, ht, _⟩ := hs.step hw hi; ⟨t, _, hst, ht⟩) h
    (Machine.Along.of_forall fun i hi _ => hops i hi)

/-- The levels are those that the log commands. -/
def Obeys (rows cols : UInt8) (map : UInt8 → UInt8 → UInt16) (log : List ((Op × Clock) × Reply)) (s : Rig nChips) : Prop :=
  ∀ r c, r < rows → c < cols → s.driver.pwm (map r c) = commanded log r c

theorem Steady.height (h : Steady rows cols map ref s) : s.matrix.rows = rows := h.lit.height

theorem Steady.width (h : Steady rows cols map ref s) : s.matrix.cols = cols := h.lit.width

theorem Steady.pool (h : Steady rows cols map ref s) (hr : r < rows) : s.matrix.pool.valid = true :=
  h.valid.resolve_right fun h0 => by
    rw [h0] at hr
    exact absurd hr (by simp [UInt8.lt_iff_toNat_lt])

theorem Steady.blocked (h : Steady rows cols map ref s) (hr : row < rows) (hc : col < cols) :
    s.matrix.blocked row col = some (s.matrix.tables.blocked row col) :=
  XPoint.blocked_eq h.wf (h.pool hr) (h.height ▸ hr) (h.width ▸ hc)

theorem Steady.driver_some (h : Steady rows cols map ref s) : s.matrix.tables.drv.isSome = true := by
  rw [show s.matrix.tables.drv = some ref from h.driven]
  rfl

theorem Steady.obeys (hw : Wired nChips rows cols map) (h : Steady rows cols map ref s) (hi : i.1.KeepsDriver ref)
    (hun : s.Undimmed i) (hobeys : Obeys rows cols map log s) :
    ∃ t o, s.step i = some (t, o) ∧ Steady rows cols map ref t ∧ Obeys rows cols map (log ++ [(i, o)]) t := by
  obtain ⟨t, hst, ht, htab, hrun⟩ := h.step hw hi
  refine ⟨t, _, hst, ht, fun r c hr hc => ?_⟩
  rw [commanded_concat, ← hobeys r c hr hc]
  refine step_levels hw h.lit h.driver_some h.valid (fun row col hop hrow hcol hb => ?_) hrun (htab ▸ ht.lit) hr hc
  have hun := hun row col hop (h.height ▸ hrow) (h.width ▸ hcol) (by rw [h.blocked hrow hcol, hb])
  rwa [h.lit.mapper] at hun

/-- `connect` on a dimmed node that the rules let through returns true and shows the old level. -/
theorem Steady.disobeys (hw : Wired nChips rows cols map) (h : Steady rows cols map ref s) (hi : i.1.KeepsDriver ref)
    (hdim : ¬s.Undimmed i) :
    ∃ t o, s.step i = some (t, o) ∧ ¬∀ r c, r < rows → c < cols → t.shown r c = commanded (log ++ [(i, o)]) r c := by
  obtain ⟨op, millis⟩ := i
  simp only [Undimmed, not_forall, not_not] at hdim
  obtain ⟨row, col, rfl, hrow, hcol, hb, hdim⟩ := hdim
  have hrow : row < rows := h.height ▸ hrow
  have hcol : col < cols := h.width ▸ hcol
  rw [h.blocked hrow hcol] at hb
  rw [h.lit.mapper] at hdim
  have hconn : s.matrix.tables.conn row col = true := by
    rw [h.lit.bits row col hrow hcol]
    exact decide_eq_true hdim.1
  have hcase : s.matrix.tables.step (.connect row col, millis) = (s.matrix.tables, ⟨some true, []⟩) :=
    TableXPoint.connect_again (h.pool hrow) (h.lit.height ▸ hrow) (h.lit.width ▸ hcol) (Option.some.inj hb) hconn
  obtain ⟨t, hst, ht, -, hrun⟩ := h.step hw hi
  rw [hcase] at hst hrun
  refine ⟨t, _, hst, fun hall => ?_⟩
  have hshown := hall row col hrow hcol
  rw [commanded_concat, ht.shown hw hrow hcol, ← Option.some.inj hrun] at hshown
  have hfull : s.driver.pwm (map row col) = 0xFFFF := by
    rw [hshown, Op.commands, if_pos ⟨rfl, rfl⟩]
    rfl
  have hlt := hdim.2
  rw [hfull] at hlt
  exact absurd hlt (by decide)

/-- In every run from a new matrix and driver, the packet shows after each operation what was commanded last for
    each node, if and only if no `connect` that the rules let through is made on a dimmed node. -/
theorem run_shows (h : XPoint.Attached rows cols .nonLatching pdur ref x) (hw : Wired nChips rows cols map)
    (hops : ∀ i ∈ ops, i.1.KeepsDriver ref) :
    ∃ s log, run ⟨x, .new nChips map⟩ ops = some (s, log) ∧
      ((∀ pre post s log, ops = pre ++ post → run ⟨x, .new nChips map⟩ pre = some (s, log) →
          ∀ r c, r < rows → c < cols → s.shown r c = commanded log r c) ↔
        Machine.Along step Undimmed ⟨x, .new nChips map⟩ ops) := by
  have hstart : Steady rows cols map ref ⟨x, .new nChips map⟩ := steady_start h
  obtain ⟨s, log, hrun, -⟩ := run_steady hw hstart hops
  refine ⟨s, log, hrun, ?_⟩
  refine (Machine.along_iff (P := Undimmed) (Q := fun i => i.1.KeepsDriver ref)
    (I := fun log s => Steady rows cols map ref s ∧ Obeys rows cols map log s)
    (J := fun log s => ∀ r c, r < rows → c < cols → s.shown r c = commanded log r c) ?_ ?_ ?_ ?_ hops).symm
  · exact fun log s hs r c hr hc => (hs.1.shown hw hr hc).trans (hs.2 r c hr hc)
  · exact fun log s i hs hi hun => hs.1.obeys hw hi hun hs.2
  · exact fun log s i hs hi hdim => hs.1.disobeys hw hi hdim
  · exact ⟨hstart, fun _ _ _ _ => pwm_new⟩

theorem wired_one : Wired 1 1 1 fun _ _ => 0 where
  chips := by decide
  inside _ _ _ _ := by decide
  apart r c r' c' hr hc hr' hc' _ := by
    simp only [UInt8.lt_iff_toNat_lt, UInt8.reduceToNat] at hr hc hr' hc'
    exact ⟨UInt8.toNat_inj.mp (by omega), UInt8.toNat_inj.mp (by omega)⟩

/-- A node at half power is connected: `connect` returns true, and the packet still shows half power. -/
theorem connect_leaves_dimmed : ∃ x, XPoint.Attached 1 1 .nonLatching 0 0 x ∧ Wired 1 1 1 (fun _ _ => 0) ∧ ∃ s log,
    run ⟨x, .new 1 fun _ _ => 0⟩ [(.setLevel 0 0 0x8000, fun _ => 0), (.connect 0 0, fun _ => 0)] = some (s, log) ∧
      s.shown 0 0 ≠ commanded log 0 0 := by
  have hrun : ((XPoint.heap 1 1 .nonLatching 0).bind fun y =>
      (run ⟨(y.setDriver (some 0)).1, .new 1 fun _ _ => 0⟩
        [(.setLevel 0 0 0x8000, fun _ => 0), (.connect 0 0, fun _ => 0)]).map fun t =>
          (t.1.shown 0 0, commanded t.2 0 0)) = some (0x8000, 0xFFFF) := by decide +kernel
  obtain ⟨y, s, log, hy, hrun, hend⟩ := Machine.run_of_bind hrun
  obtain ⟨hshown, hcommanded⟩ := Prod.mk.inj hend
  refine ⟨_, ⟨y, .heap hy, rfl⟩, wired_one, s, log, hrun, ?_⟩
  rw [hshown, hcommanded]
  decide

theorem run_shows_connect_first : ∃ x, XPoint.Attached 1 1 .nonLatching 0 0 x ∧ ∃ s log,
    run ⟨x, .new 1 fun _ _ => 0⟩ [(.connect 0 0, fun _ => 0), (.setLevel 0 0 0x8000, fun _ => 0)] = some (s, log) ∧
      s.shown 0 0 = commanded log 0 0 := by
  obtain ⟨x, hx⟩ := XPoint.exists_attached 1 1 .nonLatching 0 0
  obtain ⟨s, log, hrun, hiff⟩ := run_shows hx wired_one
    (show ∀ i ∈ [((.connect 0 0, fun _ => 0) : Op × Clock), (.setLevel 0 0 0x8000, fun _ => 0)], i.1.KeepsDriver 0 by
      simp [Op.KeepsDriver])
  have halong : Machine.Along step Undimmed (⟨x, .new 1 fun _ _ => 0⟩ : Rig 1)
      [(.connect 0 0, fun _ => 0), (.setLevel 0 0 0x8000, fun _ => 0)] := by
    refine ⟨fun row col _ _ _ _ hdim => ?_, fun r _ => ⟨fun row col hop => ?_, fun _ _ => trivial⟩⟩
    · exact absurd hdim.1 (by rw [pwm_new]; decide)
    · cases hop
  exact ⟨x, hx, s, log, hrun, hiff.mpr halong _ [] s log (List.append_nil _).symm hrun 0 0 (by decide) (by decide)⟩

end Rig

end Crosspoint
