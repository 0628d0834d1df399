import Crosspoint.Lib.Loops
import Crosspoint.ShiftRegister

/-! The chain shows the shadow buffer after every commit, whatever it held before: the bytes go out from the last
    to the first and each from bit 7 to bit 0, so the shadow bits arrive in the stages in their own order. -/

namespace Crosspoint
open Buffers Loops ShiftRegisters Traces

variable {nOut : UInt16}

theorem nBytes_toNat : (nBytes nOut).toNat = (nOut.toNat + 7) / 8 := by
  have := nOut.toNat_lt
  rw [nBytes, UInt16.toNat_ofNat']
  omega

/-! ### The shadow buffer -/

namespace ShadowBytes
variable {s : ShadowBytes nOut} {r c : UInt8} {state : Bool} {j : Nat}

/-- The shadow bit of output `j`. -/
def bitAt (s : ShadowBytes nOut) (j : Nat) : Bool := Bytes.bit ((load s.buf (j / 8)).getD 0) (UInt8.ofNat (j % 8))

theorem bitAt_new {map : UInt8 → UInt8 → UInt16} : (new nOut map).bitAt j = false := by
  have hbyte : (load (new nOut map).buf (j / 8)).getD 0 = 0 := by
    by_cases h : j / 8 < (nBytes nOut).toNat
    · rw [load_eq h]
      exact Vector.getElem_replicate h
    · rw [load, dif_neg h]
      rfl
  rw [bitAt, hbyte, Bytes.bit_zero]

theorem setNodeHardware_outside (h : nOut ≤ s.map r c) : s.setNodeHardware r c state = some s := if_pos h

/-- The bit of the mapped output is written, within the buffer, and no other. -/
theorem setNodeHardware_inside (h : s.map r c < nOut) (state : Bool) :
    ∃ s', s.setNodeHardware r c state = some s' ∧ s'.map = s.map ∧
      ∀ j, s'.bitAt j = if (s.map r c).toNat = j then state else s.bitAt j := by
  have hlt := UInt16.lt_iff_toNat_lt.mp h
  have hdiv : (s.map r c / 8).toNat = (s.map r c).toNat / 8 := UInt16.toNat_div ..
  have hmod : (s.map r c % 8).toUInt8.toNat = (s.map r c).toNat % 8 := by
    rw [UInt16.toNat_toUInt8, UInt16.toNat_mod]
    exact Nat.mod_eq_of_lt (by simp only [UInt16.reduceToNat]; omega)
  have hbi : (s.map r c / 8).toNat < (nBytes nOut).toNat := by
    rw [hdiv, nBytes_toNat]
    omega
  have hb : (s.map r c % 8).toUInt8.toNat < 8 := by omega
  obtain ⟨byte, hbyte⟩ : ∃ byte, load s.buf (s.map r c / 8).toNat = some byte := ⟨_, load_eq hbi⟩
  obtain ⟨buf, hbuf, hget⟩ := store_eq_some (p := s.buf) (x := Bytes.withBit byte (s.map r c % 8).toUInt8 state) hbi
  refine ⟨{ s with buf := buf }, ?_, rfl, fun j => ?_⟩
  · rw [setNodeHardware, if_neg (UInt16.not_le.mpr h)]
    dsimp only
    rw [hbyte]
    exact congrArg (Option.bind · _) hbuf
  · have heq : (s.map r c % 8).toUInt8 = UInt8.ofNat (j % 8) ↔ (s.map r c).toNat % 8 = j % 8 := by
      rw [← UInt8.toNat_inj, hmod, UInt8.toNat_ofNat', Nat.mod_eq_of_lt (by omega : j % 8 < 2 ^ 8)]
    rw [bitAt, bitAt, hget]
    by_cases hj : (s.map r c / 8).toNat = j / 8
    · rw [if_pos hj, ← hj, hbyte, Option.getD_some, Option.getD_some, Bytes.bit_withBit hb]
      simp only [heq]
      exact if_congr ⟨fun hm => by omega, fun hm => by omega⟩ rfl rfl
    · rw [if_neg hj, if_neg fun hm => hj (by omega)]

end ShadowBytes

/-! ### What a commit sends -/

namespace ArduinoShiftRegisterDriver
variable {d : ArduinoShiftRegisterDriver nOut} {n : Nat} {k : Chain n} {level : Bool} {levels : List Bool}

/-- The shadow bits, the first output first. -/
def bits (s : ShadowBytes nOut) : Vector Bool (8 * (nBytes nOut).toNat) := Vector.ofFn fun j : Fin _ => s.bitAt j.val

theorem toList_bits {s : ShadowBytes nOut} : (bits s).toList = (List.range (8 * (nBytes nOut).toNat)).map s.bitAt := by
  refine List.ext_getElem (by simp) fun i h₁ h₂ => ?_
  simp [bits]

/-- The two loops of a commit send the shadow bits from the last output to the first, and never read beyond the
    buffer. -/
theorem commitPhysicalUpdates_eq : d.commitPhysicalUpdates =
    some (.digitalWrite d.pins.ltPin false :: (bits d.shadow).toList.reverse.flatMap d.clockBit ++
      [.digitalWrite d.pins.ltPin true]) := by
  let n := (nBytes nOut).toNat
  have hsent : ∀ bi ∈ (List.range n).reverse, (load d.shadow.buf bi).map d.clockByte =
      some (((List.range 8).map fun b => d.shadow.bitAt (8 * bi + b)).reverse.flatMap d.clockBit) := by
    intro bi hbi
    have hbi : bi < n := List.mem_range.mp (List.mem_reverse.mp hbi)
    rw [load_eq hbi, Option.map_some, clockByte, ← List.map_reverse, List.flatMap_map]
    refine congrArg some (List.flatMap_congr fun b hb => ?_)
    have hb : b < 8 := List.mem_range.mp (List.mem_reverse.mp hb)
    rw [ShadowBytes.bitAt, Nat.mul_add_div (by omega), Nat.mul_add_mod, Nat.div_eq_of_lt hb, Nat.mod_eq_of_lt hb,
      Nat.add_zero, load_eq hbi, Option.getD_some]
  rw [commitPhysicalUpdates, mapM_eq_some hsent]
  have hbits : (((List.range n).reverse.map fun bi =>
      ((List.range 8).map fun b => d.shadow.bitAt (8 * bi + b)).reverse.flatMap d.clockBit).flatten) =
        (bits d.shadow).toList.reverse.flatMap d.clockBit := by
    rw [toList_bits, ← range_records, List.reverse_flatMap, List.flatMap_assoc, ← List.flatMap_def]
    rfl
  rw [← hbits]
  rfl

/-! ### What the chain makes of it -/

theorem replay_append {p : Pins} {cs ds : List PinCall} : k.replay p (cs ++ ds) = (k.replay p cs).replay p ds :=
  List.foldl_append

/-- The clock is low before it goes high, so each turn shifts the stages by one, whatever the levels were. -/
theorem replay_clockBit : k.replay d.pins (d.clockBit level) = ⟨level, true, k.latch, push k.stages level, k.outputs⟩ := by
  obtain ⟨hdc, hdl, hcl⟩ := d.pins.distinct
  simp [Chain.replay, clockBit, Chain.take, hdc.symm]

theorem replay_clockBits (d : ArduinoShiftRegisterDriver nOut) (k : Chain n) (levels : List Bool) :
    ∃ data clock, k.replay d.pins (levels.flatMap d.clockBit) =
      ⟨data, clock, k.latch, pushAll k.stages levels, k.outputs⟩ := by
  induction levels generalizing k with
  | nil => exact ⟨k.data, k.clock, rfl⟩
  | cons level levels ih =>
    rw [List.flatMap_cons, replay_append, replay_clockBit]
    exact ih _

/-- The latch is low while the bits go in, and copies the stages when it goes high. -/
theorem replay_latched : (k.replay d.pins (.digitalWrite d.pins.ltPin false :: levels.flatMap d.clockBit ++
    [.digitalWrite d.pins.ltPin true])).outputs = pushAll k.stages levels := by
  obtain ⟨-, hdl, hcl⟩ := d.pins.distinct
  have hlow : k.replay d.pins [.digitalWrite d.pins.ltPin false] = { k with latch := false } := by
    simp [Chain.replay, Chain.take, hdl.symm, hcl.symm]
  obtain ⟨data, clock, hbits⟩ := d.replay_clockBits { k with latch := false } levels
  rw [List.cons_append, ← List.singleton_append, replay_append, replay_append, hlow, hbits]
  simp [Chain.replay, Chain.take, hdl.symm, hcl.symm]

/-- After a commit the outputs are the shadow bits. -/
theorem commit_outputs {k : Chain (8 * (nBytes nOut).toNat)} {calls : List PinCall}
    (h : d.commitPhysicalUpdates = some calls) : (k.replay d.pins calls).outputs = bits d.shadow := by
  obtain rfl := Option.some.inj (commitPhysicalUpdates_eq.symm.trans h)
  exact replay_latched.trans pushAll_reverse

/-- A call that commits succeeds, changes no shadow bit, and leaves these at the outputs. -/
theorem commits_outputs (d : ArduinoShiftRegisterDriver nOut) (call : DriverCall) (h : call.commits = true) :
    ∃ calls, d.handle call = some (d, calls) ∧
      ∀ k : Chain (8 * (nBytes nOut).toNat), (k.replay d.pins calls).outputs = bits d.shadow := by
  cases call with
  | commitPhysicalUpdates =>
    exact ⟨_, congrArg (Option.map _) commitPhysicalUpdates_eq, fun k => commit_outputs commitPhysicalUpdates_eq⟩
  | begin =>
    refine ⟨_, congrArg (fun sent => Option.map _ (Option.bind sent _)) commitPhysicalUpdates_eq, fun k => ?_⟩
    rw [replay_append]
    exact commit_outputs commitPhysicalUpdates_eq
  | _ => cases h

/-! ### Runs -/

/-- A shadow bit after a call that sets an output, if it sets one. -/
def after (nOut : UInt16) (j : Nat) (old : Bool) (w : UInt16 × Bool) : Bool :=
  if w.1.toNat = j ∧ j < nOut.toNat then w.2 else old

/-- One call: it succeeds, and the virtual driver keeps the same shadow. -/
structure Handles (d : ArduinoShiftRegisterDriver nOut) (call : DriverCall) (d' : ArduinoShiftRegisterDriver nOut) :
    Prop where
  pins : d'.pins = d.pins
  map : d'.shadow.map = d.shadow.map
  virtual : ShiftRegisterDriver.handle ⟨d.shadow⟩ call = some ⟨d'.shadow⟩
  bits : ∀ j, d'.shadow.bitAt j = (call.sets d.shadow.map).elim (d.shadow.bitAt j) (after nOut j (d.shadow.bitAt j))

theorem setNodeHardware_handles (d : ArduinoShiftRegisterDriver nOut) (r c : UInt8) (state : Bool) :
    ∃ shadow, d.shadow.setNodeHardware r c state = some shadow ∧ shadow.map = d.shadow.map ∧
      ∀ j, shadow.bitAt j = after nOut j (d.shadow.bitAt j) (d.shadow.map r c, state) := by
  by_cases h : d.shadow.map r c < nOut
  · obtain ⟨shadow, hset, hmap, hbits⟩ := ShadowBytes.setNodeHardware_inside h state
    refine ⟨shadow, hset, hmap, fun j => ?_⟩
    rw [hbits, after]
    exact if_congr ⟨fun hj => ⟨hj, hj ▸ UInt16.lt_iff_toNat_lt.mp h⟩, And.left⟩ rfl rfl
  · refine ⟨d.shadow, ShadowBytes.setNodeHardware_outside (UInt16.not_lt.mp h), rfl, fun j => (if_neg fun hj => h ?_).symm⟩
    exact UInt16.lt_iff_toNat_lt.mpr (hj.1 ▸ hj.2)

theorem handle_spec (d : ArduinoShiftRegisterDriver nOut) (call : DriverCall) :
    ∃ d' calls, d.handle call = some (d', calls) ∧ Handles d call d' := by
  cases call with
  | begin =>
    obtain ⟨calls, hcalls, -⟩ := d.commits_outputs .begin rfl
    exact ⟨d, calls, hcalls, rfl, rfl, rfl, fun _ => rfl⟩
  | commitPhysicalUpdates =>
    obtain ⟨calls, hcalls, -⟩ := d.commits_outputs .commitPhysicalUpdates rfl
    exact ⟨d, calls, hcalls, rfl, rfl, rfl, fun _ => rfl⟩
  | releaseNode r c => exact ⟨d, [], rfl, rfl, rfl, rfl, fun _ => rfl⟩
  | setNodeHardware r c state =>
    obtain ⟨shadow, hset, hmap, hbits⟩ := d.setNodeHardware_handles r c state
    refine ⟨{ d with shadow := shadow }, [], ?_, rfl, hmap, ?_, hbits⟩
    · rw [handle, setNodeHardware, hset]
      rfl
    · exact congrArg (Option.map _) hset
  | setNodeLevel r c level =>
    obtain ⟨shadow, hset, hmap, hbits⟩ := d.setNodeHardware_handles r c (level > 0)
    refine ⟨{ d with shadow := shadow }, [], ?_, rfl, hmap, ?_, hbits⟩
    · rw [handle, setNodeHardware, hset]
      rfl
    · exact congrArg (Option.map _) hset

theorem lastSet_concat {map : UInt8 → UInt8 → UInt16} {calls : List DriverCall} {call : DriverCall} {j : Nat} :
    lastSet map (calls ++ [call]) j = (call.sets map).elim (lastSet map calls j) fun w =>
      if w.1.toNat = j then w.2 else lastSet map calls j := by
  rw [lastSet, List.filterMap_append]
  cases hw : call.sets map with
  | none => rw [List.filterMap_cons_none hw, List.filterMap_nil, List.append_nil, lastSet, Option.elim_none]
  | some w =>
    rw [List.filterMap_cons_some hw, List.filterMap_nil, lastWhere_concat, Option.elim_some]
    simp only [beq_iff_eq]
    split <;> rfl

theorem intended_concat {map : UInt8 → UInt8 → UInt16} {calls : List DriverCall} {call : DriverCall} {j : Nat} :
    intended nOut map (calls ++ [call]) j =
      (call.sets map).elim (intended nOut map calls j) (after nOut j (intended nOut map calls j)) := by
  rw [intended, lastSet_concat]
  cases call.sets map with
  | none => rfl
  | some w =>
    rw [Option.elim_some, Option.elim_some, after, intended]
    by_cases hlt : j < nOut.toNat
    · rw [decide_eq_true hlt, Bool.true_and, Bool.true_and]
      exact if_congr (and_iff_left hlt).symm rfl rfl
    · rw [decide_eq_false hlt, Bool.false_and, Bool.false_and, if_neg fun h => hlt h.2]

theorem bitAt_byteAt {s : ShadowBytes nOut} {j : Nat} (hj : j < 8 * (nBytes nOut).toNat) :
    Bytes.bit (ShiftRegisterDriver.byteAt ⟨s⟩ (UInt16.ofNat (j / 8))) (UInt8.ofNat (j % 8)) = s.bitAt j := by
  have hn := (nBytes nOut).toNat_lt
  have hidx : (UInt16.ofNat (j / 8)).toNat = j / 8 := by
    rw [UInt16.toNat_ofNat']
    omega
  have hlt : UInt16.ofNat (j / 8) < nBytes nOut := UInt16.lt_iff_toNat_lt.mpr (by omega)
  have hbyte : load s.buf (j / 8) = some (ShiftRegisterDriver.byteAt ⟨s⟩ (UInt16.ofNat (j / 8))) := by
    rw [ShiftRegisterDriver.byteAt, dif_pos hlt, load_eq (by omega)]
    simp only [hidx]
  rw [ShadowBytes.bitAt, hbyte, Option.getD_some]

/-- The drivers after a run: the same shadow, and its bits are the outputs that the calls ask for. -/
structure Loaded (nOut : UInt16) (map : UInt8 → UInt8 → UInt16) (p : Pins) (k : Chain (8 * (nBytes nOut).toNat))
    (log : List (DriverCall × List PinCall)) (d : ArduinoShiftRegisterDriver nOut) : Prop where
  pins : d.pins = p
  mapper : d.shadow.map = map
  virtual : ∃ vlog, ShiftRegisterDriver.run (.new nOut map) (log.map Prod.fst) = some (⟨d.shadow⟩, vlog)
  bits : ∀ j, d.shadow.bitAt j = intended nOut map (log.map Prod.fst) j
  loads : Preceded (Loads nOut map p k) log

variable {map : UInt8 → UInt8 → UInt16} {p : Pins} {k : Chain (8 * (nBytes nOut).toNat)}
  {log : List (DriverCall × List PinCall)}

theorem loaded_new : Loaded nOut map p k [] (.new nOut map p) where
  pins := rfl
  mapper := rfl
  virtual := ⟨[], rfl⟩
  bits _ := ShadowBytes.bitAt_new.trans (Bool.and_false _).symm
  loads := preceded_nil

theorem pinCalls_concat {e : DriverCall × List PinCall} : pinCalls (log ++ [e]) = pinCalls log ++ e.2 := flatMap_concat

theorem Loaded.loads_commit {call : DriverCall} {calls : List PinCall} (h : Loaded nOut map p k log d)
    (hout : ∀ k : Chain (8 * (nBytes nOut).toNat), (k.replay d.pins calls).outputs =
      ArduinoShiftRegisterDriver.bits d.shadow) :
    Loads nOut map p k log (call, calls) := by
  intro _
  obtain ⟨vlog, hvirtual⟩ := h.virtual
  have hbit (j : Fin (8 * (nBytes nOut).toNat)) :
      (k.replay p (pinCalls (log ++ [(call, calls)]))).outputs.get j = d.shadow.bitAt j := by
    rw [pinCalls_concat, replay_append, ← h.pins, hout]
    exact Vector.getElem_ofFn j.isLt
  refine ⟨⟨d.shadow⟩, vlog, hvirtual, fun j => ⟨(hbit j).trans (h.bits j), ?_⟩⟩
  rw [hbit, bitAt_byteAt j.isLt]

theorem Loaded.step (h : Loaded nOut map p k log d) (call : DriverCall) :
    ∃ d' calls, d.handle call = some (d', calls) ∧ Loaded nOut map p k (log ++ [(call, calls)]) d' := by
  obtain ⟨d', calls, hcalls, hd⟩ := handle_spec d call
  refine ⟨d', calls, hcalls, hd.pins.trans h.pins, hd.map.trans h.mapper, ?_, fun j => ?_, ?_⟩
  · obtain ⟨vlog, hvirtual⟩ := h.virtual
    refine ⟨vlog ++ [(call, ())], ?_⟩
    rw [List.map_append]
    exact Machine.run_append hvirtual (Machine.run_single (congrArg (Option.map fun d => (d, ())) hd.virtual))
  · rw [hd.bits, h.bits, h.mapper, List.map_append, List.map_singleton, intended_concat]
  · refine preceded_concat.mpr ⟨h.loads, fun hcommits => ?_⟩
    obtain ⟨calls', hcalls', hout⟩ := d.commits_outputs call hcommits
    obtain ⟨rfl, rfl⟩ := Prod.mk.inj (Option.some.inj (hcalls.symm.trans hcalls'))
    exact h.loads_commit hout hcommits

/-- Whatever the calls after `begin()`, and whatever the chain held and its pins were at before: the run never
    leaves the shadow buffer, every commit leaves the outputs that were asked for, those that the virtual driver
    reports, and a call for an output that there is not changes nothing. -/
theorem chain_loads (nOut : UInt16) (map : UInt8 → UInt8 → UInt16) (p : Pins) (k : Chain (8 * (nBytes nOut).toNat))
    (calls : List DriverCall) : (∃ d log, run (.new nOut map p) (.begin :: calls) = some (d, log) ∧
        Preceded (Loads nOut map p k) log) ∧
      ∀ (d : ArduinoShiftRegisterDriver nOut) (r c : UInt8) (state : Bool), nOut ≤ d.shadow.map r c →
        d.handle (.setNodeHardware r c state) = some (d, []) := by
  constructor
  · obtain ⟨d, log, hrun, hloaded⟩ : ∃ d log, run (.new nOut map p) (.begin :: calls) = some (d, log) ∧
        Loaded nOut map p k log d :=
      Machine.run_rule (P := fun _ _ => True) (fun _ _ call h _ => h.step call) loaded_new
        (.of_forall fun _ _ _ => trivial)
    exact ⟨d, log, hrun, hloaded.loads⟩
  · intro d r c state h
    rw [handle, setNodeHardware, ShadowBytes.setNodeHardware_outside h]
    rfl

/-- Ten outputs on two registers, with leftovers in the chain and every pin high, and a call for a thirteenth. -/
theorem chain_loads_ten_outputs :
    let p : Pins := ⟨11, 13, 10, by decide⟩
    let k : Chain (8 * (nBytes 10).toNat) := ⟨true, true, true, Vector.replicate _ true, Vector.replicate _ true⟩
    ∃ d log, run (.new 10 (fun _ c => c.toUInt16) p) [.begin, .setNodeHardware 0 9 true, .commitPhysicalUpdates] =
      some (d, log) ∧ Preceded (Loads 10 (fun _ c => c.toUInt16) p k) log ∧
        handle (.new 10 (fun _ c => c.toUInt16) p) (.setNodeHardware 0 12 true) =
          some (.new 10 (fun _ c => c.toUInt16) p, []) := by
  intro p k
  obtain ⟨⟨d, log, hrun, hloads⟩, hbeyond⟩ :=
    chain_loads 10 (fun _ c => c.toUInt16) p k [.setNodeHardware 0 9 true, .commitPhysicalUpdates]
  exact ⟨d, log, hrun, hloads, hbeyond (.new 10 (fun _ c => c.toUInt16) p) 0 12 true (by decide)⟩

end ArduinoShiftRegisterDriver

end Crosspoint
