import Crosspoint.Theorems.Acceptance
import Crosspoint.Theorems.Outputs

/-! `setLevel` on a driver that keeps the default `setNodeLevel`: it is `connect` for a level above 0 and
    `disconnect` for level 0, but that a non-latching node which is there already is driven once more. -/

namespace Crosspoint
open Loops

/-- The binary operation that a level asks for. -/
def Op.ofLevel (r c : UInt8) (level : UInt16) : Op := if level > 0 then .connect r c else .disconnect r c

namespace XPoint
variable {x : XPoint} {r c : UInt8} {level : UInt16} {millis : Clock} {cs : List DriverCall} {on : Bool}

/-- Two replies agree on a binary driver that has received `cs`: the same result and the same last values;
    and the same calls, or one set and commit more of a non-latching node that is `on` already. -/
structure Agree (x : XPoint) (cs : List DriverCall) (r c : UInt8) (on : Bool) (rep rep' : Reply) : Prop where
  ret : rep.ret = rep'.ret
  last : ∀ r' c', (output (cs ++ rep.calls.map DriverCall.byDefault) r' c').staged =
    (output (cs ++ rep'.calls.map DriverCall.byDefault) r' c').staged
  latching : x.type = .latchingDualCoil → rep.calls.map DriverCall.byDefault = rep'.calls.map DriverCall.byDefault
  nonLatching : x.type = .nonLatching → rep.calls.map DriverCall.byDefault = rep'.calls.map DriverCall.byDefault ∨
    x.tables.conn r c = on ∧ rep'.calls = [] ∧
      rep.calls.map DriverCall.byDefault = [.setNodeHardware r c on, .commitPhysicalUpdates]

theorem Agree.same {rep rep' : Reply} (hret : rep.ret = rep'.ret)
    (hcalls : rep.calls.map DriverCall.byDefault = rep'.calls.map DriverCall.byDefault) : Agree x cs r c on rep rep' where
  ret := hret
  last _ _ := by rw [hcalls]
  latching _ := hcalls
  nonLatching _ := .inl hcalls

/-- Driving a node to the value that it was driven to last changes no last value. -/
theorem staged_redundant (hlast : (output cs r c).staged = on) (r' c' : UInt8) :
    (output (cs ++ [.setNodeHardware r c on, .commitPhysicalUpdates]) r' c').staged = (output cs r' c').staged := by
  have hset : (output (cs ++ [.setNodeHardware r c on]) r' c').staged =
      if r = r' ∧ c = c' then on else (output cs r' c').staged := staged_set
  calc (output (cs ++ [.setNodeHardware r c on, .commitPhysicalUpdates]) r' c').staged
      = (output (cs ++ [.setNodeHardware r c on]) r' c').staged := by
        rw [List.append_cons, output_append]
        rfl
    _ = (output cs r' c').staged := by
        rw [hset]
        split
        · rename_i h
          rw [← h.1, ← h.2, hlast]
        · rfl

theorem byDefault_level (hon : decide (level > 0) = on) :
    (x.drive [.setNodeLevel r c level, .commitPhysicalUpdates]).map DriverCall.byDefault =
      x.drive [.setNodeHardware r c on, .commitPhysicalUpdates] := by
  rw [drive, drive, ← hon]
  split <;> rfl

/-- The non-latching end of `setLevel` at a node that is `on` already. -/
theorem rewrite_agrees (h : x.WellFormed) (hv : x.pool.valid = true) (hr : r < x.rows) (hc : c < x.cols)
    (htype : x.type = .nonLatching) (hlast : (output cs r c).staged = x.tables.conn r c)
    (hon : decide (level > 0) = on) (hconn : x.tables.conn r c = on) : x.pool.set (x.nodeBit r c) on = some x.pool ∧
      Agree x cs r c on ⟨some true, x.drive [.setNodeLevel r c level, .commitPhysicalUpdates]⟩ ⟨some true, []⟩ := by
  refine ⟨BitPool.set_self (((refines_tables h).conn hv r c hr hc).trans (congrArg some hconn)), ?_⟩
  have hlevel := byDefault_level (x := x) (r := r) (c := c) hon
  by_cases hdrv : x.drv.isSome = true
  · have hcalls := hlevel.trans (if_pos hdrv)
    refine ⟨rfl, fun r' c' => ?_, fun ht => ?_, fun _ => .inr ⟨hconn, rfl, hcalls⟩⟩
    · rw [hcalls, List.map_nil, List.append_nil, staged_redundant (hlast.trans hconn)]
    · cases htype.symm.trans ht
  · exact .same rfl (hlevel.trans (if_neg hdrv))

theorem switchNode_agrees (millis : Clock) (h : x.WellFormed) (hv : x.pool.valid = true) (hr : r < x.rows) (hc : c < x.cols)
    (htype : x.type = .nonLatching) (hon : decide (level > 0) = on) : ∃ pool calls,
      x.pool.set (x.nodeBit r c) on = some pool ∧ x.switchNode millis r c on = some (x.setPool pool, ⟨some true, calls⟩) ∧
      Agree x cs r c on ⟨some true, x.drive [.setNodeLevel r c level, .commitPhysicalUpdates]⟩ ⟨some true, calls⟩ := by
  obtain ⟨pool, hset, -, -⟩ := set_node h hv hr hc on
  refine ⟨pool, x.drive [.setNodeHardware r c on, .commitPhysicalUpdates], hset, ?_, .same rfl ?_⟩
  · rw [switchNode, htype, hset]
    rfl
  · rw [byDefault_level hon, drive]
    split <;> rfl

theorem ofLevel_inside (h : x.WellFormed) (hv : x.pool.valid = true) (hr : r < x.rows) (hc : c < x.cols)
    (hon : decide (level > 0) = on) : x.step (Op.ofLevel r c level, millis) =
      if on && x.tables.blocked r c then some (x, ⟨some false, []⟩)
      else if x.tables.conn r c == on then some (x, ⟨some true, []⟩)
      else x.switchNode millis r c on := by
  cases on with
  | true =>
    rw [Op.ofLevel, if_pos (of_decide_eq_true hon), Bool.true_and, beq_true]
    exact connect_inside h hv hr hc
  | false =>
    rw [Op.ofLevel, if_neg (of_decide_eq_false hon), Bool.false_and, if_neg Bool.false_ne_true, beq_false]
    exact disconnect_inside h hv hr hc

/-- In every state that the hardware shows, `setLevel` on a binary driver is `connect` or `disconnect`. -/
theorem setLevel_agrees (h : x.WellFormed) (hlast : ∀ r c, (output cs r c).staged = x.tables.conn r c) (millis : Clock)
    (r c : UInt8) (level : UInt16) : ∃ x' rep rep', x.setLevel millis r c level = some (x', rep) ∧
      x.step (Op.ofLevel r c level, millis) = some (x', rep') ∧ Agree x cs r c (decide (level > 0)) rep rep' := by
  by_cases hout : (!x.pool.valid || decide (r ≥ x.rows) || decide (c ≥ x.cols)) = true
  · refine ⟨x, ⟨some false, []⟩, ⟨some false, []⟩, if_pos hout, ?_, .same rfl rfl⟩
    unfold Op.ofLevel
    split <;> exact if_pos hout
  · obtain ⟨hv, hr, hc⟩ := inside hout
    obtain ⟨on, hon⟩ : ∃ on, decide (level > 0) = on := ⟨_, rfl⟩
    obtain ⟨y, rep, hlevel, -⟩ := setLevel_outcome h millis r c hon
    rw [setLevel_inside h hv hr hc hon] at hlevel
    rw [setLevel_inside h hv hr hc hon, ofLevel_inside h hv hr hc hon, hon]
    cases htype : x.type with
    | latchingDualCoil =>
      rw [htype] at hlevel
      exact ⟨y, rep, rep, hlevel, hlevel, .same rfl rfl⟩
    | nonLatching =>
      split
      · exact ⟨_, _, _, rfl, rfl, .same rfl rfl⟩
      · dsimp only
        split
        · rename_i hconn
          obtain ⟨hset, hagree⟩ := rewrite_agrees h hv hr hc htype (hlast r c) hon (eq_of_beq hconn)
          exact ⟨_, _, _, by rw [hset]; rfl, rfl, hagree⟩
        · obtain ⟨pool, calls, hset, hswitch, hagree⟩ := switchNode_agrees millis h hv hr hc htype hon
          exact ⟨_, _, _, by rw [hset]; rfl, hswitch, hagree⟩

/-- A connected node gets another level, and a node on a locked row is refused. -/
theorem setLevel_agrees_three_by_two :
    let ops : List (Op × Clock) := [(.lockRows 0 1, fun _ => 0), (.setLevel 0 1 9, fun _ => 0), (.connect 2 0, fun _ => 0)]
    ∃ x y log, Attached 3 2 .nonLatching 0 0 x ∧ x.run ops = some (y, log) ∧ y.drv = some 0 ∧
      y.tables.conn 0 1 = true ∧ y.tables.blocked 1 1 = true ∧
      (∃ x' rep rep', y.setLevel (fun _ => 0) 0 1 700 = some (x', rep) ∧
        y.step (Op.ofLevel 0 1 700, fun _ => 0) = some (x', rep') ∧ Agree y (driverCalls log) 0 1 true rep rep') ∧
      ∃ x' rep rep', y.setLevel (fun _ => 0) 1 1 700 = some (x', rep) ∧
        y.step (Op.ofLevel 1 1 700, fun _ => 0) = some (x', rep') ∧ Agree y (driverCalls log) 1 1 true rep rep' := by
  intro ops
  have hends : ((heap 3 2 .nonLatching 0).bind fun x => ((x.setDriver (some 0)).1.run ops).map fun p =>
      (p.1.drv, p.1.tables.conn 0 1, p.1.tables.blocked 1 1)) = some (some 0, true, true) := by
    decide +kernel
  obtain ⟨z, y, log, hz, hrun, hy⟩ := Machine.run_of_bind hends
  simp only [Prod.mk.injEq] at hy
  have hx : Attached 3 2 .nonLatching 0 0 (z.setDriver (some 0)).1 := ⟨z, .heap hz, rfl⟩
  obtain ⟨hwf, hd, -⟩ := hx.spec
  obtain ⟨y', log', hrun', hstaged⟩ := hx.run_stages (R := Eq) (fun _ => rfl)
    (show ∀ i ∈ ops, i.1.KeepsDriver 0 by simp [ops, Op.KeepsDriver]) (Machine.Along.of_forall fun _ _ _ => .inr (.inl rfl))
  obtain ⟨rfl, rfl⟩ := Prod.mk.inj (Option.some.inj (hrun'.symm.trans hrun))
  have hlast : ∀ r c, (output (driverCalls log') r c).staged = y'.tables.conn r c := fun r c => (hstaged r c).2.symm
  have hwf' := (run_wellFormed hwf hd hrun).1
  exact ⟨_, y', log', hx, hrun, hy.1, hy.2.1, hy.2.2, setLevel_agrees hwf' hlast _ 0 1 700,
    setLevel_agrees hwf' hlast _ 1 1 700⟩

end XPoint

end Crosspoint
