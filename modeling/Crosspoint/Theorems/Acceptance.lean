import Crosspoint.Theorems.Interlock

/-! Exactly when `connect`, `disconnect` and `setLevel` return true, and exactly what they do then; a refused
    operation changes nothing and drives nothing. -/

namespace Crosspoint
open Loops PulseTable

/-- The node that the operation addresses, and the state it asks for. -/
def Op.asks : Op → Option (UInt8 × UInt8 × Bool)
  | .connect r c => some (r, c, true)
  | .disconnect r c => some (r, c, false)
  | .setLevel r c level => some (r, c, decide (level > 0))
  | _ => none

namespace TableXPoint
variable {a : TableXPoint} {r c : UInt8} {on : Bool}

/-- A row other than `r` holds column `c`, by its bit or by a pulse. -/
def Holds (a : TableXPoint) (r c s : UInt8) : Prop :=
  s < a.rows ∧ s ≠ r ∧ (a.conn s c = true ∨ a.pulses.pending s c = true)

/-- The condition for node `(r, c)` to be switched to `on`, or to be found there. -/
structure Accepts (a : TableXPoint) (r c : UInt8) (on : Bool) : Prop where
  valid : a.valid = true
  row : r < a.rows
  col : c < a.cols
  interlock : on = true → ∀ s, a.lock r s = true → ¬a.Holds r c s
  exclusive : on = true → a.excl c = true → ∀ s, ¬a.Holds r c s
  room : a.conn r c = on ∨ a.type = .nonLatching ∨
    a.pulses.pending r c = false ∧ ∃ i : Fin MAX_PULSES, (a.pulses.get i).on = false

/-- The calls that an accepted operation makes on an attached driver. -/
def orders (a : TableXPoint) : Op → List DriverCall
  | .connect r c => if a.conn r c then [] else [.setNodeHardware r c true, .commitPhysicalUpdates]
  | .disconnect r c => if a.conn r c then [.setNodeHardware r c false, .commitPhysicalUpdates] else []
  | .setLevel r c level =>
    if a.type = .nonLatching then [.setNodeLevel r c level, .commitPhysicalUpdates]
    else if a.conn r c = decide (level > 0) then []
    else [.setNodeHardware r c (decide (level > 0)), .commitPhysicalUpdates]
  | _ => []

/-- The two rules of the source are the two rules of `Accepts`. -/
theorem blocked_eq_false_iff : a.blocked r c = false ↔
    (∀ s, a.lock r s = true → ¬a.Holds r c s) ∧ (a.excl c = true → ∀ s, ¬a.Holds r c s) := by
  rw [blocked, Bool.or_eq_false_iff, Bool.eq_false_iff, Bool.eq_false_iff, Ne, Ne, interlocked_iff, exclusiveTaken_iff]
  simp only [occupied_iff, Holds]
  refine and_congr ⟨fun h s hs ho => ?_, fun h => ?_⟩ ⟨fun h he s ho => h ⟨he, s, ho⟩, fun h => ?_⟩
  · exact h ⟨s, ho.1, ho.2.1, hs, ho.2.2⟩
  · rintro ⟨s, hlt, hne, hs, ho⟩
    exact h s hs ⟨hlt, hne, ho⟩
  · rintro ⟨he, s, ho⟩
    exact h he s ho

end TableXPoint

namespace XPoint
variable {x x' : XPoint} {r c : UInt8} {on : Bool} {op : Op} {millis : Clock} {rep : Reply}

/-- How an operation that asks for node `(r, c)` to be `on` comes out: `x'` and `rep`. -/
structure Outcome (x : XPoint) (millis : Clock) (op : Op) (r c : UInt8) (on : Bool) (x' : XPoint) (rep : Reply) : Prop where
  accepted : rep.ret = some true ↔ x.tables.Accepts r c on
  refused : rep.ret ≠ some true → rep.ret = some false ∧ x' = x ∧ rep.calls = []
  bit : rep.ret = some true → x'.tables = (x.tables.setConn r c on).setPulses x'.pulses
  /-- The first free slot is taken when a latching node changes, at the time after the driver's calls. -/
  pulse : rep.ret = some true → x.type = .latchingDualCoil → x.tables.conn r c ≠ on → ∃ i : Fin MAX_PULSES,
    (x.pulses.get i).on = false ∧ (∀ j < i, (x.pulses.get j).on = true) ∧
      x'.pulses = x.pulses.put i ⟨r, c, millis rep.calls.length, true⟩
  still : x.type = .nonLatching ∨ x.tables.conn r c = on → x'.pulses = x.pulses
  calls : rep.ret = some true → rep.calls = x.drive (x.tables.orders op)

/-! ### The three ways out -/

theorem refused_outcome (h : ¬x.tables.Accepts r c on) : Outcome x millis op r c on x ⟨some false, []⟩ where
  accepted := iff_of_false (fun h => by cases h) h
  refused _ := ⟨rfl, rfl, rfl⟩
  bit h := by cases h
  pulse h := by cases h
  still _ := rfl
  calls h := by cases h

theorem kept_outcome (h : x.tables.Accepts r c on) (hc : x.tables.conn r c = on) (ho : x.tables.orders op = []) :
    Outcome x millis op r c on x ⟨some true, []⟩ where
  accepted := iff_of_true rfl h
  refused hne := absurd rfl hne
  bit _ := by
    change x.tables = { x.tables with conn := setEntry x.tables.conn r c on }
    rw [setEntry_same hc]
  pulse _ _ hne := absurd hc hne
  still _ := rfl
  calls _ := by
    rw [ho, drive]
    split <;> rfl

theorem written_outcome (h : x.tables.Accepts r c on) {calls : List DriverCall}
    (hset : tables x' = (x.tables.setConn r c on)) (hp : x.type = .nonLatching) (ho : x.tables.orders op = calls) :
    Outcome x millis op r c on x' ⟨some true, x.drive calls⟩ where
  accepted := iff_of_true rfl h
  refused hne := absurd rfl hne
  bit _ := by
    have hpulses : x'.pulses = x.pulses := congrArg TableXPoint.pulses hset
    rw [hset, hpulses]
    rfl
  pulse _ ht _ := by cases hp.symm.trans ht
  still _ := congrArg TableXPoint.pulses hset
  calls _ := by rw [ho]

/-- `switchNode` on a node that the rules let through and that is not there yet. -/
theorem switchNode_outcome (h : x.WellFormed) (hv : x.pool.valid = true) (hr : r < x.rows) (hc : c < x.cols)
    (hrules : on = true → x.tables.blocked r c = false) (hne : x.tables.conn r c ≠ on)
    (ho : x.tables.orders op = [.setNodeHardware r c on, .commitPhysicalUpdates]) :
    ∃ x' rep, x.switchNode millis r c on = some (x', rep) ∧ Outcome x millis op r c on x' rep := by
  have hrules := fun hon => TableXPoint.blocked_eq_false_iff.mp (hrules hon)
  obtain ⟨pool, hset, hwf, ht⟩ := set_node h hv hr hc on
  have hopen (room) : x.tables.Accepts r c on := ⟨hv, hr, hc, fun hon => (hrules hon).1, fun hon => (hrules hon).2, room⟩
  unfold switchNode
  rw [hset]
  cases htype : x.type with
  | nonLatching => exact ⟨_, _, rfl, written_outcome (hopen (.inr (.inl htype))) ht htype ho⟩
  | latchingDualCoil =>
    dsimp only
    rw [alloc_eq]
    cases hp : x.pulses.pending r c with
    | true =>
      refine ⟨_, _, rfl, refused_outcome fun hacc => ?_⟩
      rcases hacc.room with hroom | hroom | ⟨hroom, -⟩
      · exact hne hroom
      · cases htype.symm.trans hroom
      · cases hp.symm.trans hroom
    | false =>
      cases hfree : x.pulses.firstFree with
      | none =>
        refine ⟨_, _, rfl, refused_outcome fun hacc => ?_⟩
        rcases hacc.room with hroom | hroom | ⟨-, i, hi⟩
        · exact hne hroom
        · cases htype.symm.trans hroom
        · cases (firstFree_eq_none.mp hfree i).symm.trans hi
      | some i =>
        have hi := firstFree_eq_some hfree
        refine ⟨_, _, rfl, iff_of_true rfl (hopen (.inr (.inr ⟨hp, i, hi⟩))), fun hno => absurd rfl hno, fun _ => ?_,
          fun _ _ _ => ⟨i, hi, firstFree_first hfree, rfl⟩, fun hstill => ?_, fun _ => by rw [ho]⟩
        · change (tables (x.setPool pool)).setPulses _ = _
          rw [ht]
        · rcases hstill with ht' | hc'
          · cases htype.symm.trans ht'
          · exact absurd hc' hne

/-! ### The operations -/

theorem outside_refused (hout : (!x.pool.valid || decide (r ≥ x.rows) || decide (c ≥ x.cols)) = true) :
    ¬x.tables.Accepts r c on := fun hacc => by
  have hv : x.pool.valid = true := hacc.valid
  have hr : r < x.rows := hacc.row
  have hc : c < x.cols := hacc.col
  simp [hv, UInt8.not_le.mpr hr, UInt8.not_le.mpr hc] at hout

theorem blocked_refused (hb : x.tables.blocked r c = true) : ¬x.tables.Accepts r c true := fun hacc => by
  rw [TableXPoint.blocked_eq_false_iff.mpr ⟨hacc.interlock rfl, hacc.exclusive rfl⟩] at hb
  cases hb

/-- A node that is there already is accepted when the rules let it through. -/
theorem kept_accepted (hv : x.pool.valid = true) (hr : r < x.rows) (hc : c < x.cols)
    (hrules : on = true → x.tables.blocked r c = false) (hkept : x.tables.conn r c = on ∨ x.type = .nonLatching) :
    x.tables.Accepts r c on :=
  have hrules := fun hon => TableXPoint.blocked_eq_false_iff.mp (hrules hon)
  ⟨hv, hr, hc, fun hon => (hrules hon).1, fun hon => (hrules hon).2, hkept.imp id .inl⟩

section Inside
variable (h : x.WellFormed) (hv : x.pool.valid = true) (hr : r < x.rows) (hc : c < x.cols)
include h hv hr hc

theorem connect_inside : x.connect millis r c =
    if x.tables.blocked r c then some (x, ⟨some false, []⟩)
    else if x.tables.conn r c then some (x, ⟨some true, []⟩)
    else x.switchNode millis r c true := by
  have hin : ¬(!x.pool.valid || decide (r ≥ x.rows) || decide (c ≥ x.cols)) = true := by
    simp [hv, UInt8.not_le.mpr hr, UInt8.not_le.mpr hc]
  rw [connect, if_neg hin, blocked_eq h hv hr hc, (refines_tables h).conn hv r c hr hc]
  rfl

theorem disconnect_inside : x.disconnect millis r c =
    if !x.tables.conn r c then some (x, ⟨some true, []⟩) else x.switchNode millis r c false := by
  have hin : ¬(!x.pool.valid || decide (r ≥ x.rows) || decide (c ≥ x.cols)) = true := by
    simp [hv, UInt8.not_le.mpr hr, UInt8.not_le.mpr hc]
  rw [disconnect, if_neg hin, (refines_tables h).conn hv r c hr hc]
  rfl

theorem setLevel_inside {level : UInt16} (hon : decide (level > 0) = on) : x.setLevel millis r c level =
    if on && x.tables.blocked r c then some (x, ⟨some false, []⟩)
    else match x.type with
      | .latchingDualCoil =>
        if x.tables.conn r c == on then some (x, ⟨some true, []⟩) else x.switchNode millis r c on
      | .nonLatching => (x.pool.set (x.nodeBit r c) on).map fun pool =>
        (x.setPool pool, ⟨some true, x.drive [.setNodeLevel r c level, .commitPhysicalUpdates]⟩) := by
  have hin : ¬(!x.pool.valid || decide (r ≥ x.rows) || decide (c ≥ x.cols)) = true := by
    simp [hv, UInt8.not_le.mpr hr, UInt8.not_le.mpr hc]
  have hrule : (pure on <&&> some (x.tables.blocked r c)) = some (on && x.tables.blocked r c) := by
    cases on <;> rfl
  rw [setLevel, if_neg hin]
  dsimp only
  rw [hon, blocked_eq h hv hr hc, hrule, (refines_tables h).conn hv r c hr hc, Option.map_eq_bind]
  rfl

end Inside

theorem connect_outcome (h : x.WellFormed) (millis : Clock) (r c : UInt8) :
    ∃ x' rep, x.connect millis r c = some (x', rep) ∧ Outcome x millis (.connect r c) r c true x' rep := by
  by_cases hout : (!x.pool.valid || decide (r ≥ x.rows) || decide (c ≥ x.cols)) = true
  · exact ⟨_, _, if_pos hout, refused_outcome (outside_refused hout)⟩
  · obtain ⟨hv, hr, hc⟩ := inside hout
    rw [connect_inside h hv hr hc]
    split
    · rename_i hb
      exact ⟨_, _, rfl, refused_outcome (blocked_refused hb)⟩
    · rename_i hb
      have hrules : true = true → x.tables.blocked r c = false := fun _ => Bool.eq_false_iff.mpr hb
      split
      · rename_i hconn
        exact ⟨_, _, rfl, kept_outcome (kept_accepted hv hr hc hrules (.inl hconn)) hconn (if_pos hconn)⟩
      · rename_i hconn
        exact switchNode_outcome h hv hr hc hrules hconn (if_neg hconn)

theorem disconnect_outcome (h : x.WellFormed) (millis : Clock) (r c : UInt8) :
    ∃ x' rep, x.disconnect millis r c = some (x', rep) ∧ Outcome x millis (.disconnect r c) r c false x' rep := by
  by_cases hout : (!x.pool.valid || decide (r ≥ x.rows) || decide (c ≥ x.cols)) = true
  · exact ⟨_, _, if_pos hout, refused_outcome (outside_refused hout)⟩
  · obtain ⟨hv, hr, hc⟩ := inside hout
    have hrules : false = true → x.tables.blocked r c = false := fun h => by cases h
    rw [disconnect_inside h hv hr hc]
    split
    · rename_i hconn
      have hconn : x.tables.conn r c = false := by simpa using hconn
      have ho : x.tables.orders (.disconnect r c) = [] := if_neg (Bool.eq_false_iff.mp hconn)
      exact ⟨_, _, rfl, kept_outcome (kept_accepted hv hr hc hrules (.inl hconn)) hconn ho⟩
    · rename_i hconn
      have hconn : x.tables.conn r c = true := by simpa using hconn
      exact switchNode_outcome h hv hr hc hrules (by rw [hconn]; exact Bool.noConfusion) (if_pos hconn)

theorem setLevel_outcome (h : x.WellFormed) (millis : Clock) (r c : UInt8) {level : UInt16}
    (hon : decide (level > 0) = on) :
    ∃ x' rep, x.setLevel millis r c level = some (x', rep) ∧ Outcome x millis (.setLevel r c level) r c on x' rep := by
  by_cases hout : (!x.pool.valid || decide (r ≥ x.rows) || decide (c ≥ x.cols)) = true
  · exact ⟨_, _, if_pos hout, refused_outcome (outside_refused hout)⟩
  · obtain ⟨hv, hr, hc⟩ := inside hout
    rw [setLevel_inside h hv hr hc hon]
    split
    · rename_i hrule
      obtain ⟨rfl, hb⟩ := Bool.and_eq_true_iff.mp hrule
      exact ⟨_, _, rfl, refused_outcome (blocked_refused hb)⟩
    · rename_i hrule
      have hrules : on = true → x.tables.blocked r c = false := fun hon => by simpa [hon] using hrule
      cases htype : x.type with
      | nonLatching =>
        obtain ⟨pool, hset, -, ht⟩ := set_node h hv hr hc on
        have ho : x.tables.orders (.setLevel r c level) = [.setNodeLevel r c level, .commitPhysicalUpdates] := if_pos htype
        exact ⟨_, _, by rw [hset]; rfl, written_outcome (kept_accepted hv hr hc hrules (.inr htype)) ht htype ho⟩
      | latchingDualCoil =>
        have hne : x.tables.type ≠ .nonLatching := fun h => by cases htype.symm.trans h
        have ho : x.tables.orders (.setLevel r c level) =
            if x.tables.conn r c = on then [] else [.setNodeHardware r c on, .commitPhysicalUpdates] := by
          rw [TableXPoint.orders, if_neg hne, hon]
        dsimp only
        split
        · rename_i hconn
          have hconn := eq_of_beq hconn
          exact ⟨_, _, rfl, kept_outcome (kept_accepted hv hr hc hrules (.inl hconn)) hconn (ho.trans (if_pos hconn))⟩
        · rename_i hconn
          have hconn : x.tables.conn r c ≠ on := by simpa using hconn
          exact switchNode_outcome h hv hr hc hrules hconn (ho.trans (if_neg hconn))

/-- In every state, an operation on one node returns true exactly when it is accepted, does then exactly what
    it is for, and changes nothing otherwise. -/
theorem step_outcome (h : x.WellFormed) (millis : Clock) (hop : op.asks = some (r, c, on)) :
    ∃ x' rep, x.step (op, millis) = some (x', rep) ∧ Outcome x millis op r c on x' rep := by
  cases op with
  | connect row col =>
    obtain ⟨rfl, rfl, rfl⟩ : row = r ∧ col = c ∧ true = on := by simpa [Op.asks] using hop
    exact connect_outcome h millis row col
  | disconnect row col =>
    obtain ⟨rfl, rfl, rfl⟩ : row = r ∧ col = c ∧ false = on := by simpa [Op.asks] using hop
    exact disconnect_outcome h millis row col
  | setLevel row col level =>
    obtain ⟨rfl, rfl, hon⟩ : row = r ∧ col = c ∧ decide (level > 0) = on := by simpa [Op.asks] using hop
    exact setLevel_outcome h millis row col hon
  | _ => cases hop

/-- A node on a locked row is refused; the node that blocks it is switched off, through the driver. -/
theorem step_outcome_three_by_two :
    let ops : List (Op × Clock) :=
      [(.setDriver (some 0), fun _ => 0), (.lockRows 0 1, fun _ => 0), (.connect 0 0, fun _ => 0), (.update, fun _ => 5)]
    ∃ x y log, heap 3 2 .latchingDualCoil 5 = some x ∧ x.run ops = some (y, log) ∧ y.drv = some 0 ∧
      y.tables.blocked 1 0 = true ∧ y.tables.conn 0 0 = true ∧
      (∃ x' rep, y.step (.connect 1 0, fun _ => 7) = some (x', rep) ∧
        Outcome y (fun _ => 7) (.connect 1 0) 1 0 true x' rep) ∧
      ∃ x' rep, y.step (.disconnect 0 0, fun _ => 7) = some (x', rep) ∧
        Outcome y (fun _ => 7) (.disconnect 0 0) 0 0 false x' rep := by
  intro ops
  have hends : ((heap 3 2 .latchingDualCoil 5).bind fun x => (x.run ops).map fun p =>
      (p.1.drv, p.1.tables.blocked 1 0, p.1.tables.conn 0 0)) = some (some 0, true, true) := by
    decide +kernel
  obtain ⟨x, y, log, hx, hrun, hy⟩ := Machine.run_of_bind hends
  simp only [Prod.mk.injEq] at hy
  have hb : Built 3 2 .latchingDualCoil 5 x := .heap hx
  have hwf := (run_wellFormed hb.spec.1 hb.distinct hrun).1
  exact ⟨x, y, log, hx, hrun, hy.1, hy.2.1, hy.2.2, step_outcome hwf _ rfl, step_outcome hwf _ rfl⟩

end XPoint

end Crosspoint
