import Crosspoint.Hardware
import Crosspoint.Theorems.Room

/-! A buffered driver shows the logical matrix: every operation that stages a value commits it, and what is
    staged for a node is its bit. Only `clearAll` without room breaks the second, in one direction: a node
    that is passed over is off in the matrix and on in the hardware. -/

namespace Crosspoint

/-! ### Committed calls -/

section Calls
variable {cs ds : List DriverCall} {r c r₀ c₀ : UInt8} {on : Bool} {level : UInt16}

theorem output_append : output (cs ++ ds) r c = ds.foldl (Output.take r c) (output cs r c) := by
  rw [output, List.foldl_append]
  rfl

theorem staged_set : (output (cs ++ [.setNodeHardware r₀ c₀ on]) r c).staged =
    if r₀ = r ∧ c₀ = c then on else (output cs r c).staged := by
  rw [output_append, List.foldl_cons, List.foldl_nil, Output.take_set]
  split <;> rfl

theorem staged_level : (output (cs ++ [.setNodeLevel r₀ c₀ level]) r c).staged =
    if r₀ = r ∧ c₀ = c then decide (level > 0) else (output cs r c).staged := by
  rw [output_append, List.foldl_cons, List.foldl_nil, Output.take_level]
  split <;> rfl

/-- The calls of an operation stage nothing, or end with a commit. -/
inductive Committed : List DriverCall → Prop
  | none : Committed []
  | begin : Committed [.begin]
  | commit (ds : List DriverCall) : Committed (ds ++ [.commitPhysicalUpdates])

theorem Committed.physical (h : Committed ds) (hc : (output cs r c).physical = (output cs r c).staged) :
    (output (cs ++ ds) r c).physical = (output (cs ++ ds) r c).staged := by
  cases h with
  | none => rwa [List.append_nil]
  | begin => rwa [output_append]
  | commit ds =>
    rw [← List.append_assoc, output_append]
    rfl

end Calls

namespace TableXPoint
variable {a b : TableXPoint} {e : Event} {cs ds : List DriverCall} {r c : UInt8} {on : Bool} {i : Op × Clock}

theorem committed_drive (h : Committed ds) : Committed (a.drive ds) := by
  unfold drive
  split
  · exact h
  · exact .none

theorem switchNode_committed (millis : Clock) : Committed (a.switchNode millis r c on).2.calls := by
  have h : Committed (a.drive [.setNodeHardware r c on, .commitPhysicalUpdates]) := committed_drive (.commit [_])
  unfold switchNode
  split
  · split
    · exact .none
    · exact h
  · exact h

theorem step_committed (hdrv : a.drv.isSome = true) (i : Op × Clock) : Committed (a.step i).2.calls := by
  obtain ⟨op, millis⟩ := i
  cases op with
  | setDriver drv => exact .none
  | begin => exact committed_drive .begin
  | connect row col =>
    change Committed (a.connect millis row col).2.calls
    unfold connect
    repeat' split
    · exact .none
    · exact .none
    · exact .none
    · exact switchNode_committed millis
  | disconnect row col =>
    change Committed (a.disconnect millis row col).2.calls
    unfold disconnect
    repeat' split
    · exact .none
    · exact .none
    · exact switchNode_committed millis
  | setLevel row col level =>
    change Committed (a.setLevel millis row col level).2.calls
    unfold setLevel
    dsimp only
    repeat' split
    · exact .none
    · exact .none
    · exact .none
    · exact switchNode_committed millis
    · exact committed_drive (.commit [_])
  | clearAll =>
    change Committed (a.clearAll millis).2.calls
    unfold clearAll
    split
    · exact .none
    · dsimp only
      rw [drive, if_pos hdrv]
      exact .commit _
  | lockRows rowA rowB =>
    change Committed (a.lockRows rowA rowB).2.calls
    unfold lockRows
    split <;> exact .none
  | exclusiveInput col =>
    change Committed (a.exclusiveInput col).2.calls
    unfold exclusiveInput
    split <;> exact .none
  | update =>
    change Committed (a.update millis).2.calls
    unfold update
    split
    · exact .none
    · rcases a.pulses.expire (millis 0) a.pdur with ⟨pulses, _ | ⟨n, released⟩⟩
      · exact committed_drive .none
      · exact committed_drive (.commit _)

/-! ### Staged values -/

/-- What is staged for each node stands in the relation `R` to its bit. -/
def Stages (R : Bool → Bool → Prop) (cs : List DriverCall) (a : TableXPoint) : Prop :=
  ∀ r c, R (a.conn r c) (output cs r c).staged

section Stages
variable {R : Bool → Bool → Prop} {r₀ c₀ : UInt8} {call : DriverCall}

theorem Stages.switch (hR : ∀ v, R v v) (ha : Stages R cs a)
    (hcall : ∀ r c, (output (cs ++ [call]) r c).staged = if r₀ = r ∧ c₀ = c then on else (output cs r c).staged) :
    Stages R (cs ++ [call]) (a.setConn r₀ c₀ on) := fun r c => by
  rw [hcall]
  simp only [setConn, setEntry, eq_comm (a := r₀), eq_comm (a := c₀)]
  split
  · exact hR on
  · exact ha r c

/-- An event keeps what is staged in step with the bits, unless it passes over a node. -/
theorem Does.stages (h : Does a e b) (hR : ∀ v, R v v) (hskip : ∀ r c, e = .skip r c → ∀ v, R false v)
    (ha : Stages R cs a) : Stages R (cs ++ e.calls) b := by
  cases h with
  | switch => exact ha.switch hR fun _ _ => staged_set
  | level => exact ha.switch hR fun _ _ => staged_level
  | pulse => exact ha.switch hR fun _ _ => staged_set
  | repulse => exact ha.switch hR fun _ _ => staged_set
  | @skip r₀ c₀ =>
    intro r c
    rw [Event.calls, List.append_nil]
    simp only [setConn, setEntry]
    split
    · exact hskip r₀ c₀ rfl _
    · exact ha r c
  | _ =>
    intro r c
    rw [output_append]
    exact ha r c

theorem step_stages (hR : ∀ v, R v v) (hd : a.pulses.Distinct) (hdrv : a.drv.isSome = true)
    (hi : (∀ v, R false v) ∨ a.type = .nonLatching ∨ a.Roomy i) (ha : Stages R cs a) :
    Stages R (cs ++ (a.step i).2.calls) (a.step i).1 := by
  obtain ⟨es, h⟩ := step_events hd i
  have hskip : ∀ r c, .skip r c ∈ es → ∀ v, R false v := fun r c hmem => by
    rcases hi with hi | ht | hroom
    · exact hi
    · exact absurd hmem (h.no_skip_nonLatching ht r c)
    · exact absurd hmem (h.no_skip hroom r c)
  exact h.keeps hdrv hd ha fun cs s e t hs _ he hdo => hdo.stages hR (fun r c heq => hskip r c (heq ▸ he)) hs

end Stages

end TableXPoint

namespace XPoint
variable {x : XPoint} {rows cols : UInt8} {type : RelayType} {pdur : UInt16} {d : DriverRef} {ops : List (Op × Clock)}

/-- What is staged for each node is committed and stands in the relation `R` to its bit, after every run whose
    `clearAll` calls have room where `R` needs it. -/
theorem Attached.run_stages {R : Bool → Bool → Prop} (hR : ∀ v, R v v) (h : Attached rows cols type pdur d x)
    (hops : ∀ i ∈ ops, i.1.KeepsDriver d)
    (hroom : Machine.Along step (fun x i => (∀ v, R false v) ∨ type = .nonLatching ∨ x.tables.Roomy i) x ops) :
    ∃ x' log, x.run ops = some (x', log) ∧ ∀ r c,
      (output (driverCalls log) r c).physical = (output (driverCalls log) r c).staged ∧
        R (x'.tables.conn r c) (output (driverCalls log) r c).staged := by
  obtain ⟨x', log, hrun, -, hst, hphys, -⟩ := h.run_keeps
    (J := fun cs a => a.Stages R cs ∧ (∀ r c, (output cs r c).physical = (output cs r c).staged) ∧ a.type = type)
    (P := fun a i => (∀ v, R false v) ∨ type = .nonLatching ∨ a.Roomy i)
    (fun cs a i hJ hd hdrv hi => by
      have hdrv : a.drv.isSome = true := by rw [hdrv]; rfl
      refine ⟨TableXPoint.step_stages hR hd hdrv (by rwa [hJ.2.2]) hJ.1, fun r c => ?_,
        (TableXPoint.step_type hd i).trans hJ.2.2⟩
      exact (TableXPoint.step_committed hdrv i).physical (hJ.2.1 r c))
    (fun _ => ⟨fun _ _ => hR false, fun _ _ => rfl, rfl⟩) hops hroom
  exact ⟨x', log, hrun, fun r c => ⟨hphys r c, hst r c⟩⟩

/-- After every run with one driver attached, a set bit implies that the output is on; and the outputs are the
    bits if the matrix is non-latching, or if `clearAll` is only called with a free slot for each connected
    node that has none. -/
theorem run_outputs (h : Attached rows cols type pdur d x) (hops : ∀ i ∈ ops, i.1.KeepsDriver d) :
    ∃ x' log, x.run ops = some (x', log) ∧
      (∀ r c, x'.tables.conn r c = true → (output (driverCalls log) r c).physical = true) ∧
      (type = .nonLatching ∨ Machine.Along step (fun x i => x.tables.Roomy i) x ops →
        ∀ r c, (output (driverCalls log) r c).physical = x'.tables.conn r c) := by
  obtain ⟨x', log, hrun, hon⟩ := h.run_stages (R := fun u v => u = true → v = true) (fun _ => id) hops
    (Machine.Along.of_forall fun _ _ _ => .inl fun _ h => nomatch h)
  refine ⟨x', log, hrun, fun r c => (hon r c).1 ▸ (hon r c).2, fun hroom r c => ?_⟩
  have hroom : Machine.Along step (fun x i => (∀ v, false = v) ∨ type = .nonLatching ∨ x.tables.Roomy i) x ops := by
    rcases hroom with ht | hroom
    · exact Machine.Along.of_forall fun _ _ _ => .inr (.inl ht)
    · exact hroom.imp fun _ _ hi => .inr (.inr hi)
  obtain ⟨y, log', hrun', heq⟩ := h.run_stages (R := Eq) (fun _ => rfl) hops hroom
  obtain ⟨rfl, rfl⟩ := Prod.mk.inj (Option.some.inj (hrun'.symm.trans hrun))
  exact (heq r c).1.trans (heq r c).2.symm

theorem run_outputs_two_by_two : ∃ x, Attached 2 2 .latchingDualCoil 5 0 x ∧ ∃ x' log,
    x.run [(.connect 0 1, fun _ => 0), (.clearAll, fun _ => 0), (.connect 1 0, fun _ => 0)] = some (x', log) ∧
      (∀ r c, x'.tables.conn r c = true → (output (driverCalls log) r c).physical = true) ∧
      ∀ r c, (output (driverCalls log) r c).physical = x'.tables.conn r c := by
  obtain ⟨x, hx⟩ := exists_attached 2 2 .latchingDualCoil 5 0
  have hops : ∀ i ∈ [((.connect 0 1, fun _ => 0) : Op × Clock), (.clearAll, fun _ => 0), (.connect 1 0, fun _ => 0)],
      i.1.KeepsDriver 0 := by simp [Op.KeepsDriver]
  obtain ⟨x', log, hrun, hon, heq⟩ := run_outputs hx hops
  refine ⟨x, hx, x', log, hrun, hon, heq (.inr ?_)⟩
  obtain ⟨hwf, -, valid, ht⟩ := hx.spec
  refine along_tables hwf ?_
  rw [ht]
  simp only [Machine.along_pure]
  cases valid <;> exact ⟨by decide, by decide, by decide, trivial⟩

end XPoint

end Crosspoint
