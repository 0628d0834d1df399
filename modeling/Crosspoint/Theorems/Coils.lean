import Crosspoint.Hardware
import Crosspoint.Theorems.Interlock

/-! The pulse table tracks the coils: a node has a slot as long as its coil is energised. -/

namespace Crosspoint
open PulseTable Traces

/-! ### The latest call that names a node -/

section Calls
variable {calls : List DriverCall} {r c r' c' : UInt8} {on : Bool}

theorem energised_concat {call : DriverCall} : energised (calls ++ [call]) r c =
    if call.names r c then call.energises else energised calls r c := by
  rw [energised, lastWhere_concat]
  split <;> rfl

theorem energised_set : energised (calls ++ [.setNodeHardware r' c' on]) r c = true ↔
    r = r' ∧ c = c' ∨ energised calls r c = true := by
  rw [energised_concat]
  simp only [DriverCall.names, DriverCall.energises, Bool.and_eq_true, beq_iff_eq, eq_comm (a := r'), eq_comm (a := c')]
  split
  · rename_i h
    exact iff_of_true rfl (.inl h)
  · rename_i h
    exact ⟨.inr, fun ho => ho.resolve_left h⟩

theorem energised_release : energised (calls ++ [.releaseNode r' c']) r c = true ↔
    ¬(r = r' ∧ c = c') ∧ energised calls r c = true := by
  rw [energised_concat]
  simp only [DriverCall.names, DriverCall.energises, Bool.and_eq_true, beq_iff_eq, eq_comm (a := r'), eq_comm (a := c')]
  split
  · rename_i h
    exact iff_of_false Bool.false_ne_true fun ho => ho.1 h
  · rename_i h
    exact ⟨fun ho => ⟨h, ho⟩, And.right⟩

/-- A release finds the coil energised, so no coil is released twice. -/
def ReleasesEnergised (calls : List DriverCall) : Prop :=
  Preceded (fun pre call => ∀ r c, call = .releaseNode r c → energised pre r c = true) calls

end Calls

namespace TableXPoint
variable {a b : TableXPoint} {e : Event} {es : List Event} {op : Op} {cs calls : List DriverCall} {r c : UInt8}

/-- The slots and the coils, after the calls `cs`. -/
structure Tracks (cs : List DriverCall) (a : TableXPoint) : Prop where
  type : a.type = .latchingDualCoil
  slots : ∀ r c, a.pulses.pending r c = true ↔ energised cs r c = true
  releases : ReleasesEnergised cs

theorem Tracks.nonLatching {P : Prop} (ha : Tracks cs a) (ht : a.type = .nonLatching) : P :=
  absurd (ha.type.symm.trans ht) (by simp)

theorem Blank.tracks (h : a.Blank) (ht : a.type = .latchingDualCoil) : Tracks [] a where
  type := ht
  slots r c := by
    rw [h.pulses, pending_init]
    rfl
  releases := preceded_nil

theorem Tracks.set (ha : Tracks cs a) {i : Fin MAX_PULSES} {r₀ c₀ : UInt8} {on v : Bool} {t : UInt32}
    (hi : (a.pulses.get i).on = false ∨ (a.pulses.get i).names r₀ c₀ = true) :
    Tracks (cs ++ [.setNodeHardware r₀ c₀ on]) ((a.setConn r₀ c₀ v).setPulses (a.pulses.put i ⟨r₀, c₀, t, true⟩)) where
  type := ha.type
  slots r c := by
    rw [energised_set, ← ha.slots r c]
    exact pending_put hi rfl
  releases := preceded_concat.mpr ⟨ha.releases, by simp⟩

theorem Tracks.other (ha : Tracks cs a) {call : DriverCall} (hn : ∀ r c, call.names r c = false)
    (hrel : ∀ r c, call ≠ .releaseNode r c) : Tracks (cs ++ [call]) a where
  type := ha.type
  slots r c := by
    rw [energised_concat, hn r c]
    exact ha.slots r c
  releases := preceded_concat.mpr ⟨ha.releases, fun r c h => absurd h (hrel r c)⟩

theorem Tracks.congr (ha : Tracks cs a) (ht : b.type = a.type) (hp : b.pulses = a.pulses) : Tracks (cs ++ []) b where
  type := ht.trans ha.type
  slots r c := by
    rw [hp, List.append_nil]
    exact ha.slots r c
  releases := by
    rw [List.append_nil]
    exact ha.releases

theorem Does.tracks (h : Does a e b) (hd : a.pulses.Distinct) (ha : Tracks cs a) : Tracks (cs ++ e.calls) b := by
  cases h with
  | switch ht _ => exact ha.nonLatching ht
  | level ht _ => exact ha.nonLatching ht
  | pulse _ _ _ _ hi => exact ha.set (.inl hi)
  | repulse _ _ _ hi => exact ha.set (.inr hi)
  | @release i _ hi =>
    refine ⟨ha.type, fun r c => ?_, preceded_concat.mpr ⟨ha.releases, fun r c h => ?_⟩⟩
    · rw [Event.calls, energised_release, ← ha.slots r c]
      exact hd.pending_freed hi
    · obtain ⟨rfl, rfl⟩ := DriverCall.releaseNode.inj h
      exact (ha.slots _ _).mp (pending_iff.mpr ⟨i, names_self hi⟩)
  | commit => exact ha.other (fun _ _ => rfl) (by simp)
  | begin => exact ha.other (fun _ _ => rfl) (by simp)
  | skip => exact ha.congr rfl rfl
  | lock => exact ha.congr rfl rfl
  | exclude => exact ha.congr rfl rfl
  | attach => exact ha.congr rfl rfl

theorem step_tracks (hd : a.pulses.Distinct) (hdrv : a.drv.isSome = true) (ha : Tracks cs a) (i : Op × Clock) :
    Tracks (cs ++ (a.step i).2.calls) (a.step i).1 :=
  let ⟨_, h⟩ := step_events hd i
  h.keeps hdrv hd ha fun _ _ _ _ hs hds _ hdo => hdo.tracks hds hs

end TableXPoint

namespace XPoint
variable {x : XPoint} {rows cols : UInt8} {pdur : UInt16} {d : DriverRef} {ops : List (Op × Clock)}

/-- After every run of a latching matrix its slots name distinct nodes of the matrix, exactly those whose coil
    is energised, and every release found its coil energised. -/
theorem run_tracks (h : Attached rows cols .latchingDualCoil pdur d x) (hops : ∀ i ∈ ops, i.1.KeepsDriver d) :
    ∃ x' log, x.run ops = some (x', log) ∧ x'.pulses.Distinct ∧
      (∀ i : Fin MAX_PULSES, (x'.pulses.get i).on = true → (x'.pulses.get i).r < rows ∧ (x'.pulses.get i).c < cols) ∧
      (∀ r c, (∃ i : Fin MAX_PULSES, (x'.pulses.get i).names r c = true) ↔ energised (driverCalls log) r c = true) ∧
      ReleasesEnergised (driverCalls log) := by
  obtain ⟨x', log, hrun, hd, ht, hr, hrows, hcols⟩ := h.run_keeps
    (J := fun cs a => a.Tracks cs ∧ a.InRange ∧ a.rows = rows ∧ a.cols = cols) (P := fun _ _ => True)
    (fun cs a i hI hd hdrv _ => ⟨TableXPoint.step_tracks hd (by rw [hdrv]; rfl) hI.1 i,
      TableXPoint.step_inRange hd hI.2.1 i, (TableXPoint.step_rows hd i).trans hI.2.2.1,
      (TableXPoint.step_cols hd i).trans hI.2.2.2⟩)
    (fun valid => ⟨(TableXPoint.blank_init.setDriver _).tracks rfl, (TableXPoint.blank_init.setDriver _).inRange, rfl, rfl⟩)
    hops (Machine.Along.of_forall fun _ _ _ => trivial)
  refine ⟨x', log, hrun, hd, fun i hi => ?_, fun r c => ?_, ht.releases⟩
  · have hocc : x'.tables.occupied (x'.pulses.get i).r (x'.pulses.get i).c = true :=
      TableXPoint.occupied_iff.mpr (.inr (pending_iff.mpr ⟨i, names_self hi⟩))
    rw [← hrows, ← hcols]
    exact hr _ _ hocc
  · rw [← ht.slots r c]
    exact pending_iff.symm

theorem run_tracks_two_by_two : ∃ x, Attached 2 2 .latchingDualCoil 5 0 x ∧ ∃ x' log,
    x.run [(.connect 1 0, fun _ => 3), (.clearAll, fun _ => 4), (.update, fun _ => 9)] = some (x', log) ∧
      x'.pulses.Distinct ∧
      (∀ i : Fin MAX_PULSES, (x'.pulses.get i).on = true → (x'.pulses.get i).r < 2 ∧ (x'.pulses.get i).c < 2) ∧
      (∀ r c, (∃ i : Fin MAX_PULSES, (x'.pulses.get i).names r c = true) ↔ energised (driverCalls log) r c = true) ∧
      ReleasesEnergised (driverCalls log) := by
  obtain ⟨x, hx⟩ := exists_attached 2 2 .latchingDualCoil 5 0
  exact ⟨x, hx, run_tracks hx (by simp [Op.KeepsDriver])⟩

end XPoint

end Crosspoint
