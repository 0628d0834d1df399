import Crosspoint.Cascade
import Crosspoint.Theorems.Bench
import Crosspoint.Theorems.Mapping
import Crosspoint.Theorems.Outputs
import Crosspoint.Theorems.ShiftRegister

/-! The chain never shows a half-done operation. Every operation commits at most once and last, the driver touches the
    pins only in a commit, and the outputs move only at the rising latch that ends it. -/

namespace Crosspoint
open Buffers Loops Traces

/-! ### Operations commit once -/

/-- None of the calls commits. -/
def Uncommitted (ds : List DriverCall) : Prop := ∀ call ∈ ds, call.commits = false

theorem uncommitted_nil : Uncommitted [] := fun _ hcall => absurd hcall List.not_mem_nil

theorem uncommitted_single {call : DriverCall} (h : call.commits = false) : Uncommitted [call] := fun _ hcall =>
  List.mem_singleton.mp hcall ▸ h

theorem Uncommitted.append {cs ds : List DriverCall} (hc : Uncommitted cs) (hd : Uncommitted ds) :
    Uncommitted (cs ++ ds) := fun call hcall =>
  (List.mem_append.mp hcall).elim (hc call) (hd call)

/-- The calls of an operation: none, `begin` alone, or a commit after calls that do not commit. -/
inductive Batched : List DriverCall → Prop
  | none : Batched []
  | begin : Batched [.begin]
  | commit (ds : List DriverCall) (h : Uncommitted ds) : Batched (ds ++ [.commitPhysicalUpdates])

namespace TableXPoint
variable {a : TableXPoint} {r c : UInt8} {on : Bool} {ds : List DriverCall}

theorem batched_drive (h : Batched ds) : Batched (a.drive ds) := by
  unfold drive
  split
  · exact h
  · exact .none

theorem switchNode_batched (millis : Clock) : Batched (a.switchNode millis r c on).2.calls := by
  have h : Batched (a.drive [.setNodeHardware r c on, .commitPhysicalUpdates]) :=
    batched_drive (.commit [.setNodeHardware r c on] (uncommitted_single rfl))
  unfold switchNode
  split
  · split
    · exact .none
    · exact h
  · exact h

/-- The connections before an operation are those of some tables that keep the rules after it. -/
theorem step_ruled {obeyed : Prop} {i : Op × Clock} (hd : a.pulses.Distinct) (hr : a.InRange) (hI : obeyed → a.Interlocked)
    (hi : obeyed → a.Obeys i) : ∃ s, Ruled obeyed (a.step i).1 s ∧ s.conn = a.conn := by
  by_cases hconf : i.1.Configures
  · exact ⟨_, .self (step_distinct hd i) (step_inRange hd hr i) fun ho => step_interlocked hd hr (hI ho) (hi ho),
      step_configures_conn hconf⟩
  · obtain ⟨es, h⟩ := step_events hd i
    have hself : Ruled obeyed a a := .self hd hr hI
    exact ⟨a, Ruled.others (h.steps.inv (fun _ _ _ hs he hdo => h.ruled hconf he hdo hs) hself) hself, rfl⟩

/-- The sweep of `clearAll` only sets nodes. -/
theorem clearNode_uncommitted {now : UInt32} {s : TableXPoint × List DriverCall} (hs : Uncommitted s.2) :
    Uncommitted (clearNode now r c s).2 := by
  have hdrive : Uncommitted (s.1.drive [.setNodeHardware r c false]) := by
    unfold drive
    split
    · exact uncommitted_single rfl
    · exact uncommitted_nil
  have hcalls := hs.append hdrive
  unfold clearNode
  dsimp only
  split
  · exact hs
  · split
    · split
      · exact hcalls
      · exact hs
    · exact hcalls

theorem clearAll_batched (hdrv : a.drv.isSome = true) (millis : Clock) : Batched (a.clearAll millis).2.calls := by
  unfold clearAll
  split
  · exact .none
  · dsimp only
    rw [drive, if_pos hdrv]
    refine .commit _ ?_
    generalize (if a.type = .latchingDualCoil then millis 0 else 0) = now
    have hrow : ∀ r s, Uncommitted s.2 →
        Uncommitted ((below a.cols).foldl (fun s c => clearNode now r c s) s).2 := fun r s hs =>
      List.foldlRecOn (motive := fun s => Uncommitted (Prod.snd s)) _ _ hs fun s hs c _ => clearNode_uncommitted hs
    exact List.foldlRecOn (motive := fun s => Uncommitted (Prod.snd s)) _ _ uncommitted_nil fun s hs r _ => hrow r s hs

/-- `update` releases the coils that are due, then commits. -/
theorem update_batched (millis : Clock) : Batched (a.update millis).2.calls := by
  unfold update
  split
  · exact .none
  · rcases a.pulses.expire (millis 0) a.pdur with ⟨pulses, _ | ⟨n, released⟩⟩
    · exact batched_drive .none
    · refine batched_drive (.commit _ fun call hcall => ?_)
      obtain ⟨n, -, rfl⟩ := List.mem_map.mp hcall
      rfl

theorem step_batched (hdrv : a.drv.isSome = true) (i : Op × Clock) : Batched (a.step i).2.calls := by
  obtain ⟨op, millis⟩ := i
  cases op with
  | setDriver drv => exact .none
  | begin => exact batched_drive .begin
  | connect row col =>
    change Batched (a.connect millis row col).2.calls
    unfold connect
    repeat' split
    · exact .none
    · exact .none
    · exact .none
    · exact switchNode_batched millis
  | disconnect row col =>
    change Batched (a.disconnect millis row col).2.calls
    unfold disconnect
    repeat' split
    · exact .none
    · exact .none
    · exact switchNode_batched millis
  | setLevel row col level =>
    change Batched (a.setLevel millis row col level).2.calls
    unfold setLevel
    dsimp only
    repeat' split
    · exact .none
    · exact .none
    · exact .none
    · exact switchNode_batched millis
    · exact batched_drive (.commit [.setNodeLevel row col level] (uncommitted_single rfl))
  | clearAll =>
    change Batched (a.clearAll millis).2.calls
    exact clearAll_batched hdrv millis
  | lockRows rowA rowB =>
    rw [step_configures_calls (i := (.lockRows rowA rowB, millis)) trivial]
    exact .none
  | exclusiveInput col =>
    rw [step_configures_calls (i := (.exclusiveInput col, millis)) trivial]
    exact .none
  | update =>
    change Batched (a.update millis).2.calls
    exact update_batched millis

end TableXPoint

/-! ### The outputs move with the latch only -/

namespace ArduinoShiftRegisterDriver
variable {nOut : UInt16} {d d' : ArduinoShiftRegisterDriver nOut} {n : Nat} {call : DriverCall} {cs ds : List DriverCall}
  {log : List (DriverCall × List PinCall)}

theorem take_outputs {p : Pins} {k : Chain n} {call : PinCall} (h : call ≠ .digitalWrite p.ltPin true) :
    (k.take p call).outputs = k.outputs := by
  cases call with
  | pinMode pin => rfl
  | digitalWrite pin level =>
    unfold Chain.take
    dsimp only
    split
    · rfl
    · split
      · rfl
      · split
        · rename_i heq
          cases level with
          | false => rfl
          | true => exact absurd (heq ▸ rfl) h
        · rfl

/-- A commit raises the latch once, with its last call. -/
theorem commits_calls (d : ArduinoShiftRegisterDriver nOut) (h : call.commits = true) :
    ∃ pre, d.handle call = some (d, pre ++ [.digitalWrite d.pins.ltPin true]) ∧
      ∀ c ∈ pre, c ≠ PinCall.digitalWrite d.pins.ltPin true := by
  obtain ⟨-, hdl, hcl⟩ := d.pins.distinct
  have hbits : ∀ c ∈ PinCall.digitalWrite d.pins.ltPin false :: (bits d.shadow).toList.reverse.flatMap d.clockBit,
      c ≠ .digitalWrite d.pins.ltPin true := fun c hc => by
    rcases List.mem_cons.mp hc with rfl | hc
    · simp
    · obtain ⟨level, -, hc⟩ := List.mem_flatMap.mp hc
      simp only [clockBit, List.mem_cons, List.not_mem_nil, or_false] at hc
      rcases hc with rfl | rfl | rfl <;> simp [hdl, hcl]
  cases call with
  | commitPhysicalUpdates => exact ⟨_, congrArg (Option.map _) commitPhysicalUpdates_eq, hbits⟩
  | begin =>
    have hbegin : d.begin = some ([.pinMode d.pins.dPin, .pinMode d.pins.ckPin, .pinMode d.pins.ltPin,
        .digitalWrite d.pins.dPin false, .digitalWrite d.pins.ckPin false, .digitalWrite d.pins.ltPin false] ++
          .digitalWrite d.pins.ltPin false :: (bits d.shadow).toList.reverse.flatMap d.clockBit ++
            [.digitalWrite d.pins.ltPin true]) := by
      rw [begin, commitPhysicalUpdates_eq]
      rfl
    refine ⟨_, congrArg (Option.map _) hbegin, fun c hc => ?_⟩
    rcases List.mem_append.mp hc with hc | hc
    · simp only [List.mem_cons, List.not_mem_nil, or_false] at hc
      rcases hc with rfl | rfl | rfl | rfl | rfl | rfl <;> simp
    · exact hbits c hc
  | _ => cases h

/-- The outputs go from what they show to the shadow bits at once. -/
theorem commits_throughout (d : ArduinoShiftRegisterDriver nOut) (call : DriverCall) (h : call.commits = true) :
    ∃ calls, d.handle call = some (d, calls) ∧ ∀ k : Chain (8 * (nBytes nOut).toNat),
      Throughout (Chain.take d.pins) (fun k' => k'.outputs = k.outputs ∨ k'.outputs = bits d.shadow) k calls ∧
        (k.replay d.pins calls).outputs = bits d.shadow := by
  obtain ⟨pre, hhandle, hpre⟩ := d.commits_calls h
  obtain ⟨calls, hhandle', hout⟩ := d.commits_outputs call h
  obtain rfl := (Prod.mk.inj (Option.some.inj (hhandle'.symm.trans hhandle))).2
  have hkept : ∀ k : Chain (8 * (nBytes nOut).toNat),
      Throughout (Chain.take d.pins) (fun k' => k'.outputs = k.outputs) k pre :=
    fun k => throughout_of_kept (fun c hc k' hk' => (take_outputs (hpre c hc)).trans hk') rfl
  refine ⟨_, hhandle, fun k => ⟨throughout_append.mpr ⟨?_, throughout_cons.mpr ⟨?_, throughout_nil.mpr (.inr ?_)⟩⟩, hout k⟩⟩
  · exact (hkept k).imp fun _ hk => .inl hk
  · exact .inl (hkept k).last
  · rw [← hout k, Chain.replay, List.foldl_append]
    rfl

theorem handle_uncommitted {calls : List PinCall} (h : call.commits = false) (hhandle : d.handle call = some (d', calls)) :
    calls = [] := by
  cases call with
  | begin => cases h
  | commitPhysicalUpdates => cases h
  | releaseNode r c => exact (Prod.mk.inj (Option.some.inj hhandle)).2.symm
  | setNodeHardware r c state =>
    obtain ⟨_, -, heq⟩ := Option.map_eq_some_iff.mp hhandle
    exact (Prod.mk.inj heq).2.symm
  | setNodeLevel r c level =>
    obtain ⟨_, -, heq⟩ := Option.map_eq_some_iff.mp hhandle
    exact (Prod.mk.inj heq).2.symm

theorem run_pins (hrun : run d ds = some (d', log)) : d'.pins = d.pins := by
  induction ds generalizing d log with
  | nil => rw [(Prod.mk.inj (Option.some.inj hrun)).1]
  | cons call ds ih =>
    obtain ⟨d₁, calls, rest, hstep, hrest, rfl⟩ := Machine.run_cons_eq_some.mp hrun
    obtain ⟨d₂, calls', hstep', h⟩ := handle_spec d call
    obtain ⟨rfl, -⟩ := Prod.mk.inj (Option.some.inj (hstep'.symm.trans hstep))
    exact (ih hrest).trans h.pins

/-- Calls that do not commit leave the pins alone. -/
theorem run_uncommitted (h : Uncommitted ds) (hrun : run d ds = some (d', log)) : pinCalls log = [] := by
  have hquiet : ∀ e ∈ log, e.2 = [] := by
    induction ds generalizing d log with
    | nil =>
      obtain rfl := (Prod.mk.inj (Option.some.inj hrun)).2
      exact fun _ he => absurd he List.not_mem_nil
    | cons call ds ih =>
      obtain ⟨d₁, calls, log', hstep, hrest, rfl⟩ := Machine.run_cons_eq_some.mp hrun
      intro e he
      rcases List.mem_cons.mp he with rfl | he
      · exact handle_uncommitted (h call List.mem_cons_self) hstep
      · exact ih (fun call hcall => h call (List.mem_cons_of_mem _ hcall)) hrest e he
  exact List.flatMap_eq_nil_iff.mpr hquiet

/-- The calls of one operation: the outputs go from what they show to the shadow bits at once. -/
theorem run_batched {k : Chain (8 * (nBytes nOut).toNat)} (h : Batched cs) (hrun : run d cs = some (d', log))
    (hk : k.outputs = bits d.shadow) :
    Throughout (Chain.take d.pins) (fun k' => k'.outputs = bits d.shadow ∨ k'.outputs = bits d'.shadow) k (pinCalls log) ∧
      (k.replay d.pins (pinCalls log)).outputs = bits d'.shadow := by
  cases h with
  | none =>
    obtain ⟨rfl, rfl⟩ := Prod.mk.inj (Option.some.inj hrun)
    exact ⟨throughout_nil.mpr (.inl hk), hk⟩
  | begin =>
    obtain ⟨calls, hstep, rfl⟩ := Machine.run_single_eq_some.mp hrun
    obtain ⟨calls', hstep', hcalls⟩ := d.commits_throughout .begin rfl
    obtain ⟨rfl, rfl⟩ := Prod.mk.inj (Option.some.inj (hstep'.symm.trans hstep))
    obtain ⟨hthrough, hlast⟩ := hcalls k
    rw [pinCalls, List.flatMap_singleton]
    exact ⟨hthrough.imp fun _ hk' => .inr (hk'.elim (·.trans hk) id), hlast⟩
  | commit ds hds =>
    obtain ⟨d₁, log₁, log₂, h₁, h₂, rfl⟩ := Machine.run_append_eq_some.mp hrun
    obtain ⟨calls, hstep, rfl⟩ := Machine.run_single_eq_some.mp h₂
    obtain ⟨calls', hstep', hcalls⟩ := d₁.commits_throughout .commitPhysicalUpdates rfl
    obtain ⟨rfl, rfl⟩ := Prod.mk.inj (Option.some.inj (hstep'.symm.trans hstep))
    obtain ⟨hthrough, hlast⟩ := hcalls k
    rw [pinCalls_concat, run_uncommitted hds h₁, List.nil_append, ← run_pins h₁]
    exact ⟨hthrough.imp fun _ hk' => hk'.imp (·.trans hk) id, hlast⟩

/-! ### The shadow bits follow the tables -/

/-- The shadow bits are those of the connected nodes. -/
def Mirrors (map : UInt8 → UInt8 → UInt16) (a : TableXPoint) (d : ArduinoShiftRegisterDriver nOut) : Prop :=
  ∀ j, d.shadow.bitAt j = true ↔ ∃ r c, a.conn r c = true ∧ map r c < nOut ∧ (map r c).toNat = j

/-- A driver of a matrix of this size. -/
structure Drives (rows cols : UInt8) (map : UInt8 → UInt8 → UInt16) (a : TableXPoint)
    (d : ArduinoShiftRegisterDriver nOut) : Prop where
  rows : a.rows = rows
  cols : a.cols = cols
  inRange : a.InRange
  mapper : d.shadow.map = map
  bits : Mirrors map a d

variable {rows cols r c : UInt8} {map : UInt8 → UInt8 → UInt16} {a b : TableXPoint} {e : Event} {on : Bool} {i : Op × Clock}

/-- A call that sets the output of a node, which no other node has. -/
theorem Drives.set (hmap : Injects rows cols map) (h : Drives rows cols map a d) (hr : r < a.rows) (hc : c < a.cols)
    (hb : b.conn = setEntry a.conn r c on) (hcall : call.sets map = some (map r c, on)) :
    ∃ d' calls, d.handle call = some (d', calls) ∧ d'.shadow.map = map ∧ Mirrors map b d' := by
  obtain ⟨d', calls, hhandle, hd'⟩ := handle_spec d call
  refine ⟨d', calls, hhandle, hd'.map.trans h.mapper, fun j => ?_⟩
  have hbit : d'.shadow.bitAt j = after nOut j (d.shadow.bitAt j) (map r c, on) := by
    rw [hd'.bits, h.mapper, hcall, Option.elim_some]
  rw [hbit, after, hb]
  rw [h.rows] at hr
  rw [h.cols] at hc
  by_cases hj : (map r c).toNat = j ∧ j < nOut.toNat
  · rw [if_pos hj]
    have hlt : map r c < nOut := UInt16.lt_iff_toNat_lt.mpr (hj.1 ▸ hj.2)
    refine ⟨fun hon => ⟨r, c, (setEntry_self ..).trans hon, hlt, hj.1⟩, ?_⟩
    rintro ⟨r', c', hconn, -, hj'⟩
    by_cases hsame : r' = r ∧ c' = c
    · rwa [hsame.1, hsame.2, setEntry_self] at hconn
    · rw [setEntry_ne hsame] at hconn
      obtain ⟨hr', hc'⟩ := h.inRange r' c' (TableXPoint.occupied_iff.mpr (.inl hconn))
      rw [h.rows] at hr'
      rw [h.cols] at hc'
      exact absurd (hmap r' c' r c hr' hc' hr hc (UInt16.toNat_inj.mp (hj'.trans hj.1.symm))) hsame
  · rw [if_neg hj, h.bits j]
    have hother : ∀ r' c', map r' c' < nOut → (map r' c').toNat = j → ¬(r' = r ∧ c' = c) := fun r' c' hlt hj' hsame => by
      rw [hsame.1, hsame.2] at hlt hj'
      exact hj ⟨hj', hj' ▸ UInt16.lt_iff_toNat_lt.mp hlt⟩
    constructor
    · rintro ⟨r', c', hconn, hlt, hj'⟩
      exact ⟨r', c', (setEntry_ne (hother r' c' hlt hj')).trans hconn, hlt, hj'⟩
    · rintro ⟨r', c', hconn, hlt, hj'⟩
      exact ⟨r', c', (setEntry_ne (hother r' c' hlt hj')).symm.trans hconn, hlt, hj'⟩

/-- A call that sets no output. -/
theorem Drives.keep (h : Drives rows cols map a d) (hb : b.conn = a.conn) (hcall : call.sets map = none) :
    ∃ d' calls, d.handle call = some (d', calls) ∧ d'.shadow.map = map ∧ Mirrors map b d' := by
  obtain ⟨d', calls, hhandle, hd'⟩ := handle_spec d call
  refine ⟨d', calls, hhandle, hd'.map.trans h.mapper, fun j => ?_⟩
  rw [hd'.bits, h.mapper, hcall, Option.elim_none, hb]
  exact h.bits j

theorem Drives.event (hmap : Injects rows cols map) (h : Drives rows cols map a d) (hdo : TableXPoint.Does a e b)
    (hskip : ∀ r c, e ≠ .skip r c) : ∃ d' log, run d e.calls = some (d', log) ∧ Drives rows cols map b d' := by
  -- An event makes one call at most, which sets its node or sets nothing.
  have hone : ∀ {call : DriverCall}, e.calls = [call] → (∃ d' calls, d.handle call = some (d', calls) ∧
      d'.shadow.map = map ∧ Mirrors map b d') → ∃ d' log, run d e.calls = some (d', log) ∧ Drives rows cols map b d' := by
    rintro call hcall ⟨d', calls, hhandle, hmapper, hbits⟩
    rw [hcall]
    exact ⟨d', _, Machine.run_single hhandle, hdo.rows.trans h.rows, hdo.cols.trans h.cols, hdo.inRange h.inRange,
      hmapper, hbits⟩
  have hnone : e.calls = [] → b.conn = a.conn → ∃ d' log, run d e.calls = some (d', log) ∧ Drives rows cols map b d' := by
    intro hcall hconn
    rw [hcall]
    refine ⟨d, [], rfl, hdo.rows.trans h.rows, hdo.cols.trans h.cols, hdo.inRange h.inRange, h.mapper, fun j => ?_⟩
    rw [hconn]
    exact h.bits j
  cases hdo with
  | switch _ hallows => exact hone rfl (h.set hmap hallows.row hallows.col rfl rfl)
  | level _ hallows => exact hone rfl (h.set hmap hallows.row hallows.col rfl rfl)
  | pulse _ hallows => exact hone rfl (h.set hmap hallows.row hallows.col rfl rfl)
  | repulse _ hallows => exact hone rfl (h.set hmap hallows.row hallows.col rfl rfl)
  | skip => exact absurd rfl (hskip _ _)
  | release => exact hone rfl (h.keep rfl rfl)
  | commit => exact hone rfl (h.keep rfl rfl)
  | lock => exact hnone rfl rfl
  | exclude => exact hnone rfl rfl
  | attach => exact hnone rfl rfl
  | begin => exact hone rfl (h.keep rfl rfl)

theorem Drives.step (hmap : Injects rows cols map) (h : Drives rows cols map a d) (hd : a.pulses.Distinct)
    (hdrv : a.drv.isSome = true) (hi : a.type = .nonLatching ∨ a.Roomy i) :
    ∃ d' log, run d (a.step i).2.calls = some (d', log) ∧ Drives rows cols map (a.step i).1 d' := by
  obtain ⟨es, hes⟩ := TableXPoint.step_events hd i
  have hskip : ∀ r c, .skip r c ∉ es := by
    rcases hi with ht | hroom
    · exact hes.no_skip_nonLatching ht
    · exact hes.no_skip hroom
  refine hes.keeps_nil (J := fun cs s => ∃ d' log, run d cs = some (d', log) ∧ Drives rows cols map s d') hdrv hd
    ⟨d, [], rfl, h⟩ fun cs s e t hs _ he hdo => ?_
  obtain ⟨d₁, log₁, h₁, hd₁⟩ := hs
  obtain ⟨d₂, log₂, h₂, hd₂⟩ := hd₁.event hmap hdo fun r c heq => hskip r c (heq ▸ he)
  exact ⟨d₂, _, Machine.run_append h₁ h₂, hd₂⟩

theorem drives_new {p : Pins} {type : RelayType} {pdur : UInt16} {valid : Bool} {drv : Option DriverRef} :
    Drives rows cols map ((TableXPoint.init rows cols type pdur valid).setDriver drv).1 (new nOut map p) where
  rows := rfl
  cols := rfl
  inRange := (TableXPoint.blank_init.setDriver _).inRange
  mapper := rfl
  bits j := by
    rw [new, ShadowBytes.bitAt_new]
    exact ⟨fun hoff => absurd hoff Bool.false_ne_true, fun ⟨_, _, hconn, _⟩ => absurd hconn Bool.false_ne_true⟩

end ArduinoShiftRegisterDriver

/-! ### Runs of the cascade -/

theorem Chain.high_bits {nOut : UInt16} {k : Chain (8 * (nBytes nOut).toNat)} {s : ShadowBytes nOut}
    (h : k.outputs = ArduinoShiftRegisterDriver.bits s) (j : Nat) : k.high j = s.bitAt j := by
  rw [Chain.high, h]
  by_cases hj : j < 8 * (nBytes nOut).toNat
  · rw [load_eq hj, Option.getD_some]
    exact Vector.getElem_ofFn hj
  · have hbyte : load s.buf (j / 8) = none := by
      rw [load, dif_neg]
      omega
    rw [load, dif_neg hj, ShadowBytes.bitAt, hbyte, Option.getD_none, Option.getD_none, Bytes.bit_zero]

theorem ArduinoShiftRegisterDriver.Mirrors.shows {nOut : UInt16} {d : ArduinoShiftRegisterDriver nOut}
    {map : UInt8 → UInt8 → UInt16} {a : TableXPoint} {k : Chain (8 * (nBytes nOut).toNat)} (h : d.Mirrors map a)
    (hk : k.outputs = bits d.shadow) : k.Shows nOut map a := fun j => by
  rw [Chain.high_bits hk]
  exact h j

namespace Cascade
open ArduinoShiftRegisterDriver
variable {nOut : UInt16} {s t : Cascade nOut} {x : XPoint} {rows cols : UInt8} {type : RelayType} {pdur : UInt16}
  {ref : DriverRef} {map : UInt8 → UInt8 → UInt16} {i : Op × Clock} {ops : List (Op × Clock)} {rep : Reply}
  {calls : List PinCall} {obeyed : Prop}

theorem step_eq_some (h : step s i = some (t, rep, calls)) : s.matrix.step i = some (t.matrix, rep) := by
  simp only [step, Option.bind_eq_bind, Option.bind_eq_some_iff, Option.pure_def, Option.some.injEq, Prod.mk.injEq,
    Prod.exists] at h
  obtain ⟨x', rep', hstep, d', log, -, rfl, rfl, -⟩ := h
  exact hstep

/-- A cascade in a run with this driver, whose chain shows the tables. -/
structure Good (obeyed : Prop) (rows cols : UInt8) (type : RelayType) (map : UInt8 → UInt8 → UInt16) (ref : DriverRef)
    (s : Cascade nOut) : Prop where
  wellFormed : s.matrix.WellFormed
  distinct : s.matrix.pulses.Distinct
  drv : s.matrix.drv = some ref
  type : s.matrix.type = type
  drives : Drives rows cols map s.matrix.tables s.driver
  outputs : s.chain.outputs = bits s.driver.shadow
  interlocked : obeyed → s.matrix.tables.Interlocked

/-- What an operation of the run has to meet. -/
def Fair (obeyed : Prop) (type : RelayType) (ref : DriverRef) (x : XPoint) (i : Op × Clock) : Prop :=
  i.1.KeepsDriver ref ∧ (type = .nonLatching ∨ x.tables.Roomy i) ∧ (obeyed → x.tables.Obeys i)

theorem Good.step (hmap : Injects rows cols map) (h : Good obeyed rows cols type map ref s)
    (hi : Fair obeyed type ref s.matrix i) :
    ∃ t rep calls, Cascade.step s i = some (t, rep, calls) ∧ Good obeyed rows cols type map ref t ∧
      (t.matrix.tables, rep) = s.matrix.tables.step i ∧ Throughout (Chain.take s.driver.pins)
        (fun k => k.outputs = bits s.driver.shadow ∨ k.outputs = bits t.driver.shadow) s.chain calls := by
  obtain ⟨hkeeps, hroom, hobeys⟩ := hi
  obtain ⟨x', rep, hx, hwf, ht⟩ := XPoint.step_matches h.wellFormed i
  have htables : x'.tables = (s.matrix.tables.step i).1 := by rw [ht]
  have hcalls : rep.calls = (s.matrix.tables.step i).2.calls := by rw [ht]
  have hdrv : s.matrix.tables.drv.isSome = true := by
    change s.matrix.drv.isSome = true
    rw [h.drv]
    rfl
  obtain ⟨d', log, hrun, hdrives⟩ := h.drives.step hmap h.distinct hdrv (hroom.imp (h.type.trans ·) id)
  rw [← hcalls] at hrun
  rw [← htables] at hdrives
  obtain ⟨hthrough, hlast⟩ := run_batched (hcalls ▸ TableXPoint.step_batched hdrv i) hrun h.outputs
  refine ⟨⟨x', d', s.chain.replay s.driver.pins (pinCalls log)⟩, rep, pinCalls log, ?_, ?_, ht.symm, hthrough⟩
  · rw [Cascade.step, hx]
    exact congrArg (fun o => Option.bind o _) hrun
  · refine ⟨hwf, ?_, ?_, ?_, hdrives, hlast, fun ho => ?_⟩
    · change x'.tables.pulses.Distinct
      rw [htables]
      exact TableXPoint.step_distinct h.distinct i
    · exact (congrArg TableXPoint.drv htables).trans (TableXPoint.step_drv h.distinct h.drv hkeeps)
    · exact (congrArg TableXPoint.type htables).trans ((TableXPoint.step_type h.distinct i).trans h.type)
    · rw [htables]
      exact TableXPoint.step_interlocked h.distinct h.drives.inRange (h.interlocked ho) (hobeys ho)

/-- `begin` clears the chain, whatever it showed. -/
theorem begun (obeyed : Prop) (map : UInt8 → UInt8 → UInt16) (h : XPoint.Attached rows cols type pdur ref x) (p : Pins)
    (k : Chain (8 * (nBytes nOut).toNat)) (millis : Clock) :
    ∃ s calls, step ⟨x, .new nOut map p, k⟩ (.begin, millis) = some (s, ⟨none, [.begin]⟩, calls) ∧ s.matrix = x ∧
      Good obeyed rows cols type map ref s := by
  obtain ⟨hwf, hd, valid, ht⟩ := h.spec
  have hdrv : x.drv = some ref := (congrArg TableXPoint.drv ht :)
  obtain ⟨calls, hhandle, hout⟩ := (new nOut map p).commits_throughout .begin rfl
  refine ⟨⟨x, .new nOut map p, k.replay p calls⟩, calls, ?_, rfl, hwf, hd, hdrv, (congrArg TableXPoint.type ht :), ?_,
    (hout k).2, ?_⟩
  · have hrun : ArduinoShiftRegisterDriver.run (new nOut map p) [.begin] = some (new nOut map p, [(.begin, calls)]) :=
      Machine.run_single hhandle
    have hcalls : pinCalls [(DriverCall.begin, calls)] = calls := List.flatMap_singleton ..
    rw [step, XPoint.step_begin hdrv]
    change (ArduinoShiftRegisterDriver.run (new nOut map p) [DriverCall.begin]).bind _ = _
    rw [hrun, Option.bind_some]
    dsimp only
    rw [hcalls]
    rfl
  · rw [ht]
    exact drives_new
  · intro _
    rw [ht]
    exact (TableXPoint.blank_init.setDriver _).interlocked

/-- The fair run goes through, and shows the tables before or after the operation in progress at every instant. -/
theorem Good.along (hmap : Injects rows cols map) (h : Good obeyed rows cols type map ref s)
    (hfair : Machine.Along XPoint.step (Fair obeyed type ref) s.matrix ops) :
    (∃ t log, run s ops = some (t, log) ∧ Good obeyed rows cols type map ref t) ∧
      Machine.Along Cascade.step (fun s i => ∀ t rep calls, Cascade.step s i = some (t, rep, calls) →
        Good obeyed rows cols type map ref t ∧
          (∃ a, TableXPoint.Ruled obeyed t.matrix.tables a ∧ a.conn = s.matrix.tables.conn) ∧
          Throughout (Chain.take s.driver.pins)
            (fun k => k.Shows nOut map s.matrix.tables ∨ k.Shows nOut map t.matrix.tables) s.chain calls) s ops := by
  have hfair : Machine.Along Cascade.step (fun s i => Fair obeyed type ref s.matrix i) s ops :=
    Machine.Along.lift (fun s : Cascade nOut => s.matrix) (fun _ _ _ hr => ⟨_, step_eq_some hr⟩) hfair
  constructor
  · refine Machine.run_inv (fun s i hs hi => ?_) h hfair
    obtain ⟨t, rep, calls, ht, hgood, -⟩ := hs.step hmap hi
    exact ⟨t, _, ht, hgood⟩
  · refine Machine.Along.rule (fun s i hs hi => ?_) h hfair
    obtain ⟨t, rep, calls, ht, hgood, htables, hthrough⟩ := hs.step hmap hi
    refine ⟨fun t' rep' calls' ht' => ?_, fun r hr => ?_⟩
    · obtain ⟨rfl, rfl, rfl⟩ : t = t' ∧ rep = rep' ∧ calls = calls' := by simpa using ht.symm.trans ht'
      have hruled := TableXPoint.step_ruled hs.distinct hs.drives.inRange hs.interlocked hi.2.2
      rw [← htables] at hruled
      exact ⟨hgood, hruled, hthrough.imp fun k hk => hk.imp hs.drives.bits.shows hgood.drives.bits.shows⟩
    · obtain rfl := Option.some.inj (ht.symm.trans hr)
      exact hgood

theorem along_fair (hops : ∀ i ∈ ops, i.1.KeepsDriver ref)
    (hroom : type = .nonLatching ∨ Machine.Along XPoint.step (fun x i => x.tables.Roomy i) x ops)
    (hobeys : Machine.Along XPoint.step (fun x i => obeyed → x.tables.Obeys i) x ops) :
    Machine.Along XPoint.step (Fair obeyed type ref) x ops := by
  have hroom : Machine.Along XPoint.step (fun x i => type = .nonLatching ∨ x.tables.Roomy i) x ops := by
    rcases hroom with ht | hroom
    · exact .of_forall fun _ _ _ => .inl ht
    · exact hroom.imp fun _ _ hi => .inr hi
  exact ((Machine.Along.of_forall fun i hi _ => hops i hi).and (hroom.and hobeys)).imp fun _ _ hi => hi

/-- Whatever the chain held at first: once the driver has begun, it shows at every instant the tables before or after the
    operation in progress, and in the end those that the run leaves. -/
theorem switches_at_once (h : XPoint.Attached rows cols type pdur ref x) (hmap : Injects rows cols map)
    (hops : ∀ i ∈ ops, i.1.KeepsDriver ref)
    (hroom : type = .nonLatching ∨ Machine.Along XPoint.step (fun x i => x.tables.Roomy i) x ops)
    (p : Pins) (k : Chain (8 * (nBytes nOut).toNat)) (millis : Clock) :
    ∃ s calls, step ⟨x, .new nOut map p, k⟩ (.begin, millis) = some (s, ⟨none, [.begin]⟩, calls) ∧
      (∃ t log, run s ops = some (t, log) ∧ t.chain.Shows nOut map t.matrix.tables) ∧
      Always (fun a b k => k.Shows nOut map a ∨ k.Shows nOut map b) s ops := by
  obtain ⟨s, calls, hbegin, rfl, hgood⟩ := begun False map h p k millis
  obtain ⟨⟨t, log, hrun, ht⟩, halong⟩ :=
    hgood.along hmap (along_fair hops hroom (.of_forall fun _ _ _ (ho : False) => ho.elim))
  exact ⟨s, calls, hbegin, ⟨t, log, hrun, ht.drives.bits.shows ht.outputs⟩,
    halong.imp fun s i hi t rep calls ht => (hi t rep calls ht).2.2⟩

/-- The 4×4 matrix on two registers, which hold leftovers at first. -/
theorem switches_at_once_four_by_four : ∃ x, XPoint.Attached 4 4 .nonLatching 0 0 x ∧
    let map : UInt8 → UInt8 → UInt16 := fun r c => rowMajorIndex r c 4
    let p : Pins := ⟨2, 3, 4, by decide⟩
    let k : Chain (8 * (nBytes 16).toNat) := ⟨true, true, true, Vector.replicate _ true, Vector.replicate _ true⟩
    ∃ s calls, step ⟨x, .new 16 map p, k⟩ (.begin, fun _ => 0) = some (s, ⟨none, [.begin]⟩, calls) ∧
      Always (fun a b k => k.Shows 16 map a ∨ k.Shows 16 map b) s
        [(.connect 0 1, fun _ => 0), (.connect 3 3, fun _ => 0), (.clearAll, fun _ => 0)] := by
  obtain ⟨x, hx⟩ := XPoint.exists_attached 4 4 .nonLatching 0 0
  refine ⟨x, hx, ?_⟩
  intro map p k
  obtain ⟨s, calls, hbegin, -, halways⟩ := switches_at_once hx (show Injects 4 4 map from injects_rowMajorIndex)
    (show ∀ i ∈ [((.connect 0 1, fun _ => 0) : Op × Clock), (.connect 3 3, fun _ => 0), (.clearAll, fun _ => 0)],
      i.1.KeepsDriver 0 by simp [Op.KeepsDriver]) (.inl rfl) p k fun _ => 0
  exact ⟨s, calls, hbegin, halways⟩

theorem shows_apart {a b : TableXPoint} {k : Chain (8 * (nBytes nOut).toNat)} (hmap : Injects rows cols map)
    (hrows : b.rows = rows) (hcols : b.cols = cols) (ha : TableXPoint.Ruled True b a) (hk : k.Shows nOut map a) :
    b.Apart fun r c => k.high (map r c).toNat := by
  refine ha.apart fun r c hr hc hhigh => ?_
  obtain ⟨r', c', hconn, -, hout⟩ := (hk _).mp hhigh
  have hin := ha.inRange r' c' (TableXPoint.occupied_iff.mpr (.inl hconn))
  rw [ha.rows, ha.cols, hrows, hcols] at hin
  rw [hrows] at hr
  rw [hcols] at hc
  obtain ⟨rfl, rfl⟩ := hmap r' c' r c hin.1 hin.2 hr hc (UInt16.toNat_inj.mp hout)
  exact TableXPoint.occupied_iff.mpr (.inl hconn)

/-- In a run whose rules are set when their rows and columns obey them, no column has the outputs of two locked rows high at
    any instant, and no exclusive column the outputs of two rows. -/
theorem outputs_apart (h : XPoint.Attached rows cols type pdur ref x) (hmap : Injects rows cols map)
    (hops : ∀ i ∈ ops, i.1.KeepsDriver ref)
    (hroom : type = .nonLatching ∨ Machine.Along XPoint.step (fun x i => x.tables.Roomy i) x ops)
    (hobeys : Machine.Along XPoint.step (fun x i => x.tables.Obeys i) x ops)
    (p : Pins) (k : Chain (8 * (nBytes nOut).toNat)) (millis : Clock) :
    ∃ s calls, step ⟨x, .new nOut map p, k⟩ (.begin, millis) = some (s, ⟨none, [.begin]⟩, calls) ∧
      Always (fun _ b k => b.Apart fun r c => k.high (map r c).toNat) s ops := by
  obtain ⟨s, calls, hbegin, rfl, hgood⟩ := begun True map h p k millis
  obtain ⟨-, halong⟩ := hgood.along hmap (along_fair hops hroom (hobeys.imp fun _ _ hi (_ : True) => hi))
  refine ⟨s, calls, hbegin, halong.imp fun s i hi t rep calls ht => ?_⟩
  obtain ⟨hgood, ⟨a, ha, hconn⟩, hthrough⟩ := hi t rep calls ht
  have hrows := hgood.drives.rows
  have hcols := hgood.drives.cols
  refine hthrough.imp fun k hk => ?_
  rcases hk with hk | hk
  · exact shows_apart hmap hrows hcols ha fun j => by
      rw [hconn]
      exact hk j
  · exact shows_apart hmap hrows hcols (.self hgood.distinct hgood.drives.inRange hgood.interlocked) hk

/-- The rules of the sketch, which are set before anything is connected. -/
theorem outputs_apart_four_by_four : ∃ x, XPoint.Attached 4 4 .nonLatching 0 0 x ∧
    let map : UInt8 → UInt8 → UInt16 := fun r c => rowMajorIndex r c 4
    let p : Pins := ⟨2, 3, 4, by decide⟩
    let k : Chain (8 * (nBytes 16).toNat) := ⟨true, true, true, Vector.replicate _ true, Vector.replicate _ true⟩
    ∃ s calls, step ⟨x, .new 16 map p, k⟩ (.begin, fun _ => 0) = some (s, ⟨none, [.begin]⟩, calls) ∧
      Always (fun _ b k => b.Apart fun r c => k.high (map r c).toNat) s
        [(.lockRows 0 1, fun _ => 0), (.connect 0 1, fun _ => 0), (.connect 1 1, fun _ => 0)] := by
  obtain ⟨x, hx⟩ := XPoint.exists_attached 4 4 .nonLatching 0 0
  refine ⟨x, hx, ?_⟩
  intro map p k
  refine outputs_apart hx (show Injects 4 4 map from injects_rowMajorIndex) (by simp [Op.KeepsDriver]) (.inl rfl) ?_ p k _
  exact ⟨hx.obeys _, fun _ _ => ⟨trivial, fun _ _ => ⟨trivial, fun _ _ => trivial⟩⟩⟩

end Cascade

end Crosspoint
