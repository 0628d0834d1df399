import Crosspoint.MCP23017
import Crosspoint.Theorems.Mapping
import Crosspoint.Theorems.Outputs

/-! The pins of the expander are the state bits of the matrix. The two shadow bytes go to the latches in two writes
    after every call, and a call changes one bit of one of them, so no write disturbs another pin. -/

namespace Crosspoint
open Traces

/-! ### The device and the shadow -/

namespace MCP23017
variable {m : MCP23017} {bus : I2CInterface} {addr reg val : UInt8} {ws vs : List BusWrite} {b : Nat}

theorem replay_append : m.replay b addr (ws ++ vs) = (m.replay b addr ws).replay b addr vs := List.foldl_append

theorem take_writeRegister : m.take bus.bus addr (bus.writeRegister addr reg val) = m.write reg val := if_pos ⟨rfl, rfl⟩

/-- The device that shows two shadow bytes. -/
def showing (ga gb : UInt8) : MCP23017 := ⟨0, 0, ga, gb⟩

theorem replay_olata {ga gb : UInt8} :
    (showing ga gb).replay bus.bus addr [bus.writeRegister addr REG_OLATA val] = showing val gb := take_writeRegister

theorem replay_olatb {ga gb : UInt8} :
    (showing ga gb).replay bus.bus addr [bus.writeRegister addr REG_OLATB val] = showing ga val := take_writeRegister

/-- What every write of a sequence keeps, the sequence keeps. -/
theorem replay_keeps {I : MCP23017 → Prop} (hw : ∀ w ∈ ws, ∀ m : MCP23017, I m → I (m.take b addr w)) (hm : I m) :
    I (m.replay b addr ws) := List.foldlRecOn ws (take b addr) hm fun m hm w hmem => hw w hmem m hm

theorem pin_olata {q : UInt8} : (m.write REG_OLATA val).pin q = if q < 8 then Bytes.bit val q else m.pin q := by
  change (if q < 8 then Bytes.bit val q else Bytes.bit m.olatb (q - 8)) = _
  unfold pin
  split <;> rfl

theorem pin_olatb {q : UInt8} : (m.write REG_OLATB val).pin q = if q < 8 then m.pin q else Bytes.bit val (q - 8) := by
  change (if q < 8 then Bytes.bit m.olata q else Bytes.bit val (q - 8)) = _
  unfold pin
  split <;> rfl

end MCP23017

namespace MCP23017Driver
open MCP23017
variable {d : MCP23017Driver} {m : MCP23017} {bus : I2CInterface} {p q : UInt8} {state : Bool}

/-- The device as the shadow bytes have it. -/
def shown (d : MCP23017Driver) : MCP23017 := showing d.ga d.gb

/-- A call changes the shadow bit of its pin and no other. -/
theorem setPin_pin (hp : p < 16) : (d.setPin p state).shown.pin q = if p = q then state else d.shown.pin q := by
  have hp := UInt8.lt_iff_toNat_lt.mp hp
  have heq : p = q ↔ p.toNat = q.toNat := UInt8.toNat_inj.symm
  have hlt : ∀ x : UInt8, x < 8 ↔ x.toNat < 8 := fun _ => UInt8.lt_iff_toNat_lt
  have hsub : ∀ x : UInt8, ¬x.toNat < 8 → (x - 8).toNat = x.toNat - 8 := fun x hx => by
    rw [UInt8.toNat_sub_of_le _ _ (UInt8.le_iff_toNat_le.mpr (Nat.not_lt.mp hx))]
    rfl
  simp only [UInt8.reduceToNat] at hp
  unfold setPin shown MCP23017.pin
  by_cases hpa : p.toNat < 8
  · rw [if_pos ((hlt p).mpr hpa)]
    by_cases hqa : q.toNat < 8
    · rw [if_pos ((hlt q).mpr hqa), if_pos ((hlt q).mpr hqa)]
      exact Bytes.bit_withBit hpa
    · rw [if_neg ((hlt q).not.mpr hqa), if_neg ((hlt q).not.mpr hqa), if_neg (by rw [heq]; omega)]
      rfl
  · rw [if_neg ((hlt p).not.mpr hpa)]
    by_cases hqa : q.toNat < 8
    · rw [if_pos ((hlt q).mpr hqa), if_pos ((hlt q).mpr hqa), if_neg (by rw [heq]; omega)]
      rfl
    · have hsame : p - 8 = q - 8 ↔ p = q := by
        rw [heq, ← UInt8.toNat_inj, hsub p hpa, hsub q hqa]
        omega
      rw [if_neg ((hlt q).not.mpr hqa), if_neg ((hlt q).not.mpr hqa)]
      refine (Bytes.bit_withBit (by rw [hsub p hpa]; omega)).trans ?_
      simp only [hsame]
      rfl

/-! ### The writes of a call -/

variable {call : DriverCall} {w : BusWrite} {map : UInt8 → UInt8 → UInt8} {addr : UInt8}

theorem commit_eq (hi : d.i2c = some bus) :
    d.commit = [bus.writeRegister d.addr REG_OLATA d.ga, bus.writeRegister d.addr REG_OLATB d.gb] := by
  rw [commit, hi]

/-- The two writes that `begin` makes first. -/
def directions (bus : I2CInterface) (addr : UInt8) : List BusWrite :=
  [bus.writeRegister addr REG_IODIRA 0, bus.writeRegister addr REG_IODIRB 0]

theorem directions_latch_nothing {w : BusWrite} (hw : w ∈ directions bus addr) : ¬w.latches := by
  rintro ⟨val, hval⟩
  simp only [directions, List.mem_cons, List.not_mem_nil, or_false] at hw
  rcases hw with rfl | rfl <;> simp [I2CInterface.writeRegister, REG_IODIRA, REG_IODIRB, REG_OLATA, REG_OLATB] at hval

theorem begin_eq (hi : d.i2c = some bus) : d.begin = directions bus d.addr ++ d.commit := by
  rw [begin, hi]
  rfl

theorem handle_sets (hs : call.sets d.map = some (p, state)) :
    d.handle call = (d.setPin p state, (d.setPin p state).commit) := by
  cases call with
  | setNodeHardware | setNodeLevel =>
    obtain ⟨rfl, rfl⟩ := Prod.mk.inj (Option.some.inj hs)
    rfl
  | _ => cases hs

theorem handle_other (hs : call.sets d.map = none) : (d.handle call).1 = d := by
  cases call with
  | setNodeHardware | setNodeLevel => cases hs
  | _ => rfl

theorem setPin_wiring (d : MCP23017Driver) (p : UInt8) (state : Bool) :
    (d.setPin p state).i2c = d.i2c ∧ (d.setPin p state).addr = d.addr ∧ (d.setPin p state).map = d.map := by
  unfold setPin
  split <;> exact ⟨rfl, rfl, rfl⟩

theorem handle_wiring (d : MCP23017Driver) (call : DriverCall) :
    (d.handle call).1.i2c = d.i2c ∧ (d.handle call).1.addr = d.addr ∧ (d.handle call).1.map = d.map := by
  cases hs : call.sets d.map with
  | none =>
    rw [handle_other hs]
    exact ⟨rfl, rfl, rfl⟩
  | some w =>
    rw [handle_sets hs]
    exact setPin_wiring ..

/-- A write of the driver: an output direction, or the content of a shadow byte. -/
inductive Sends (bus : I2CInterface) (d : MCP23017Driver) : BusWrite → Prop
  | iodira : Sends bus d (bus.writeRegister d.addr REG_IODIRA 0)
  | iodirb : Sends bus d (bus.writeRegister d.addr REG_IODIRB 0)
  | olata : Sends bus d (bus.writeRegister d.addr REG_OLATA d.ga)
  | olatb : Sends bus d (bus.writeRegister d.addr REG_OLATB d.gb)

theorem commit_sends (hi : d.i2c = some bus) (hw : w ∈ d.commit) : Sends bus d w := by
  rw [commit_eq hi] at hw
  rcases List.mem_cons.mp hw with rfl | hw
  · exact .olata
  · rw [List.mem_singleton.mp hw]
    exact .olatb

theorem handle_sends (hi : d.i2c = some bus) (hw : w ∈ (d.handle call).2) : Sends bus (d.handle call).1 w := by
  cases hs : call.sets d.map with
  | some v =>
    rw [handle_sets hs] at hw ⊢
    exact commit_sends ((setPin_wiring ..).1.trans hi) hw
  | none =>
    cases call with
    | begin =>
      rw [handle, begin_eq hi] at hw
      rcases List.mem_append.mp hw with hw | hw
      · rcases List.mem_cons.mp hw with rfl | hw
        · exact .iodira
        · rw [List.mem_singleton.mp hw]
          exact .iodirb
      · exact commit_sends hi hw
    | setNodeHardware | setNodeLevel => cases hs
    | releaseNode | commitPhysicalUpdates => cases hw

theorem Sends.outputs (h : Sends bus d w) (hm : m.Outputs) : (m.take bus.bus d.addr w).Outputs := by
  cases h with
  | iodira => rw [take_writeRegister]; exact ⟨rfl, hm.2⟩
  | iodirb => rw [take_writeRegister]; exact ⟨hm.1, rfl⟩
  | olata | olatb => rw [take_writeRegister]; exact hm

/-- No write disturbs a pin that the shadow bytes have as it was. -/
theorem Sends.differsAt {pin : Option UInt8} {m₀ : MCP23017} (h : Sends bus d w) (h₀ : m₀.Outputs)
    (hpins : ∀ q, pin ≠ some q → d.shown.pin q = m₀.pin q) (hm : DiffersAt pin m₀ m) :
    DiffersAt pin m₀ (m.take bus.bus d.addr w) := by
  cases h with
  | iodira =>
    rw [take_writeRegister]
    exact ⟨h₀.1.symm, hm.iodirb, hm.pins⟩
  | iodirb =>
    rw [take_writeRegister]
    exact ⟨hm.iodira, h₀.2.symm, hm.pins⟩
  | olata =>
    rw [take_writeRegister]
    refine ⟨hm.iodira, hm.iodirb, fun q hq => ?_⟩
    rw [pin_olata]
    split
    · rename_i hlt
      exact (if_pos hlt).symm.trans (hpins q hq)
    · exact hm.pins q hq
  | olatb =>
    rw [take_writeRegister]
    refine ⟨hm.iodira, hm.iodirb, fun q hq => ?_⟩
    rw [pin_olatb]
    split
    · exact hm.pins q hq
    · rename_i hlt
      exact (if_neg hlt).symm.trans (hpins q hq)

/-! ### Runs of the driver -/

theorem busWrites_concat {log : List (DriverCall × List BusWrite)} {e : DriverCall × List BusWrite} :
    busWrites (log ++ [e]) = busWrites log ++ e.2 := flatMap_concat

/-- A run of the driver that started with `begin`, on a device that was `m` at first. -/
structure Drives (bus : I2CInterface) (addr : UInt8) (map : UInt8 → UInt8 → UInt8) (m : MCP23017)
    (log : List (DriverCall × List BusWrite)) (d : MCP23017Driver) : Prop where
  i2c : d.i2c = some bus
  address : d.addr = addr
  mapper : d.map = map
  device : m.replay bus.bus addr (busWrites log) = d.shown
  directed : ∃ rest, busWrites log = directions bus addr ++ rest ∧
    ∀ w ∈ rest, ∀ m : MCP23017, m.Outputs → (m.take bus.bus addr w).Outputs
  steady : Preceded (Steady map bus.bus addr m) log

theorem replay_commit (hi : d.i2c = some bus) {ga gb : UInt8} :
    (showing ga gb).replay bus.bus d.addr d.commit = d.shown := by
  rw [commit_eq hi, ← List.singleton_append, replay_append, replay_olata, replay_olatb]
  rfl

theorem replay_directions : m.replay bus.bus addr (directions bus addr) = showing m.olata m.olatb := by
  rw [directions, ← List.singleton_append, replay_append]
  exact take_writeRegister.trans (congrArg (write · REG_IODIRB 0) take_writeRegister)

/-- The four writes of `begin` leave nothing of what the device held before. -/
theorem replay_begin (hi : d.i2c = some bus) : m.replay bus.bus d.addr d.begin = d.shown := by
  rw [begin_eq hi, replay_append, replay_directions]
  exact replay_commit hi

theorem replay_handle (hi : d.i2c = some bus) :
    d.shown.replay bus.bus d.addr (d.handle call).2 = (d.handle call).1.shown := by
  cases hs : call.sets d.map with
  | some v =>
    have hw := d.setPin_wiring v.1 v.2
    rw [handle_sets hs, ← hw.2.1]
    exact replay_commit (hw.1.trans hi)
  | none =>
    cases call with
    | begin => exact replay_begin hi
    | setNodeHardware | setNodeLevel => cases hs
    | releaseNode | commitPhysicalUpdates => rfl

theorem drives_begin (d : MCP23017Driver) (m : MCP23017) (hi : d.i2c = some bus) :
    Drives bus d.addr d.map m [(.begin, d.begin)] d where
  i2c := hi
  address := rfl
  mapper := rfl
  device := by
    rw [busWrites, List.flatMap_singleton]
    exact replay_begin hi
  directed := by
    refine ⟨d.commit, ?_, fun w hw m hm => (commit_sends hi hw).outputs hm⟩
    rw [busWrites, List.flatMap_singleton]
    exact begin_eq hi
  steady := preceded_concat.mpr ⟨preceded_nil, fun h => absurd rfl h⟩

theorem handle_pin (hp : ∀ p state, call.sets d.map = some (p, state) → p < 16) (q : UInt8) :
    (d.handle call).1.shown.pin q =
      (call.sets d.map).elim (d.shown.pin q) fun w => if w.1 = q then w.2 else d.shown.pin q := by
  cases hs : call.sets d.map with
  | none => rw [handle_other hs, Option.elim_none]
  | some w => rw [handle_sets hs, setPin_pin (hp w.1 w.2 hs), Option.elim_some]

theorem Drives.step {log : List (DriverCall × List BusWrite)} (h : Drives bus addr map m log d)
    (hp : ∀ p state, call.sets map = some (p, state) → p < 16) :
    Drives bus addr map m (log ++ [(call, (d.handle call).2)]) (d.handle call).1 := by
  obtain ⟨hi, rfl, rfl, hdevice, ⟨rest, hrest, hkeep⟩, hsteady⟩ := h
  obtain ⟨hi', haddr, hmap⟩ := d.handle_wiring call
  have hsends : ∀ w ∈ (d.handle call).2, Sends bus (d.handle call).1 w := fun w hw => handle_sends hi hw
  refine ⟨hi'.trans hi, haddr, hmap, ?_, ⟨rest ++ (d.handle call).2, ?_, fun w hw m hm => ?_⟩, ?_⟩
  · rw [busWrites_concat, replay_append, hdevice]
    exact replay_handle hi
  · rw [busWrites_concat, hrest, List.append_assoc]
  · rcases List.mem_append.mp hw with hw | hw
    · exact hkeep w hw m hm
    · exact haddr ▸ (hsends w hw).outputs hm
  · refine preceded_concat.mpr ⟨hsteady, fun _ ws rest hws => ?_⟩
    have hpins : ∀ q, (call.sets d.map).map Prod.fst ≠ some q → (d.handle call).1.shown.pin q = d.shown.pin q :=
      fun q hq => by
      rw [handle_pin hp]
      cases hs : call.sets d.map with
      | none => rfl
      | some w =>
        rw [hs] at hq
        exact if_neg fun heq => hq (congrArg some heq)
    rw [replay_append, hdevice]
    refine replay_keeps (I := DiffersAt _ d.shown) (fun w hw m hm => ?_) ⟨rfl, rfl, fun _ _ => rfl⟩
    have hmem : w ∈ (d.handle call).2 := hws ▸ List.mem_append_left rest hw
    exact haddr ▸ (hsends w hmem).differsAt ⟨rfl, rfl⟩ hpins hm

/-- Only what follows the two direction writes writes to a latch. -/
theorem Drives.all_directed {log : List (DriverCall × List BusWrite)} (h : Drives bus addr map m log d) :
    Directed bus.bus addr m (busWrites log) := by
  obtain ⟨rest, hrest, hkeep⟩ := h.directed
  intro pre w post hws hlatch mid post' hmid
  have hdirs : (m.replay bus.bus addr (directions bus addr)).Outputs := by
    rw [replay_directions]
    exact ⟨rfl, rfl⟩
  have hsplit : ∃ rest', pre = directions bus addr ++ rest' ∧ rest = rest' ++ w :: post := by
    rcases List.append_eq_append_iff.mp (hrest.symm.trans hws) with ⟨rest', hpre, hpost⟩ | ⟨rest', hpre, hpost⟩
    · exact ⟨rest', hpre, hpost⟩
    · cases rest' with
      | nil => exact ⟨[], by simpa using hpre.symm, by simpa using hpost.symm⟩
      | cons w' rest' =>
        obtain ⟨rfl, -⟩ := List.cons.inj hpost
        exact absurd hlatch (directions_latch_nothing (hpre ▸ List.mem_append_right pre List.mem_cons_self))
  obtain ⟨rest', rfl, rfl⟩ := hsplit
  rw [List.append_assoc, replay_append]
  refine replay_keeps (I := Outputs) (fun w hw m hm => hkeep w ?_ m hm) hdirs
  rw [hmid, ← List.append_assoc]
  exact List.mem_append_left post' hw

/-! ### The matrix and the expander -/

variable {rows cols : UInt8} {a b : TableXPoint} {e : Event} {cs : List DriverCall} {d' : MCP23017Driver}

/-- A pin is high exactly if it is the pin of a connected node. -/
structure Shows (rows cols : UInt8) (map : UInt8 → UInt8 → UInt8) (d : MCP23017Driver) (a : TableXPoint) : Prop where
  inRange : ∀ r c, a.conn r c = true → r < rows ∧ c < cols
  pins : ∀ q, d.shown.pin q = true ↔ ∃ r c, a.conn r c = true ∧ map r c = q

theorem Shows.congr (h : Shows rows cols map d a) (hd : ∀ q, d'.shown.pin q = d.shown.pin q) (hc : b.conn = a.conn) :
    Shows rows cols map d' b := ⟨hc.symm ▸ h.inRange, fun q => by rw [hd, hc]; exact h.pins q⟩

/-- A node that is switched takes its pin with it, which is no other node's. -/
theorem Shows.set {r c : UInt8} {on : Bool} (hw : Pinned rows cols map) (h : Shows rows cols map d a) (hr : r < rows)
    (hc : c < cols) (hd : ∀ q, d'.shown.pin q = if map r c = q then on else d.shown.pin q) :
    Shows rows cols map d' (a.setConn r c on) where
  inRange r' c' hconn := by
    by_cases heq : r' = r ∧ c' = c
    · rw [heq.1, heq.2]
      exact ⟨hr, hc⟩
    · exact h.inRange r' c' ((setEntry_ne heq).symm.trans hconn)
  pins q := by
    rw [hd]
    split
    · rename_i hq
      cases on with
      | true => exact iff_of_true rfl ⟨r, c, setEntry_self .., hq⟩
      | false =>
        refine iff_of_false Bool.false_ne_true ?_
        rintro ⟨r', c', hconn, hq'⟩
        by_cases heq : r' = r ∧ c' = c
        · rw [heq.1, heq.2] at hconn
          exact Bool.false_ne_true ((setEntry_self ..).symm.trans hconn)
        · obtain ⟨hr', hc'⟩ := h.inRange r' c' ((setEntry_ne heq).symm.trans hconn)
          exact heq (hw.apart r' c' r c hr' hc' hr hc (hq'.trans hq.symm))
    · rename_i hq
      have hother : ∀ r' c', map r' c' = q → (a.setConn r c on).conn r' c' = a.conn r' c' := fun r' c' hq' =>
        setEntry_ne fun heq => hq (by rw [← heq.1, ← heq.2, hq'])
      rw [h.pins]
      constructor
      · rintro ⟨r', c', hconn, hq'⟩
        exact ⟨r', c', (hother r' c' hq').trans hconn, hq'⟩
      · rintro ⟨r', c', hconn, hq'⟩
        exact ⟨r', c', (hother r' c' hq').symm.trans hconn, hq'⟩

/-- A non-latching matrix and its expander, after the calls `cs` that followed `begin`. -/
structure Follows (bus : I2CInterface) (addr : UInt8) (map : UInt8 → UInt8 → UInt8) (m : MCP23017) (rows cols : UInt8)
    (cs : List DriverCall) (a : TableXPoint) : Prop where
  type : a.type = .nonLatching
  rows_eq : a.rows = rows
  cols_eq : a.cols = cols
  driven : ∃ d log, run (.new (some bus) addr map) (.begin :: cs) = some (d, log) ∧ Drives bus addr map m log d ∧
    Shows rows cols map d a

theorem Follows.quiet (h : Follows bus addr map m rows cols cs a) (ht : b.type = a.type) (hr : b.rows = a.rows)
    (hc : b.cols = a.cols) (hconn : b.conn = a.conn) : Follows bus addr map m rows cols (cs ++ []) b := by
  obtain ⟨d, log, hrun, hdrives, hshows⟩ := h.driven
  refine ⟨ht.trans h.type, hr.trans h.rows_eq, hc.trans h.cols_eq, d, log, ?_, hdrives, hshows.congr (fun _ => rfl) hconn⟩
  rw [List.append_nil]
  exact hrun

theorem Follows.takes (h : Follows bus addr map m rows cols cs a) (ht : b.type = a.type) (hr : b.rows = a.rows)
    (hc : b.cols = a.cols) (hp : ∀ p state, call.sets map = some (p, state) → p < 16)
    (hshows : ∀ d d', Shows rows cols map d a → (∀ q, d'.shown.pin q =
      (call.sets map).elim (d.shown.pin q) fun w => if w.1 = q then w.2 else d.shown.pin q) → Shows rows cols map d' b) :
    Follows bus addr map m rows cols (cs ++ [call]) b := by
  obtain ⟨d, log, hrun, hdrives, hshow⟩ := h.driven
  obtain rfl : d.map = map := hdrives.mapper
  refine ⟨ht.trans h.type, hr.trans h.rows_eq, hc.trans h.cols_eq, (d.handle call).1,
    log ++ [(call, (d.handle call).2)], ?_, hdrives.step hp, hshows d _ hshow (handle_pin hp)⟩
  rw [← List.cons_append]
  exact Machine.run_append hrun (Machine.run_single rfl)

/-- A call that drives a node, and the bit of the node with it. -/
theorem Follows.node {r c : UInt8} {on : Bool} (hw : Pinned rows cols map) (h : Follows bus addr map m rows cols cs a)
    (hall : a.Allows r c on) (hs : call.sets map = some (map r c, on)) :
    Follows bus addr map m rows cols (cs ++ [call]) (a.setConn r c on) := by
  have hr : r < rows := h.rows_eq ▸ hall.row
  have hc : c < cols := h.cols_eq ▸ hall.col
  refine h.takes rfl rfl rfl (fun p state hp => ?_) fun d d' hd hpin => hd.set hw hr hc fun q => ?_
  · obtain ⟨rfl, -⟩ := Prod.mk.inj (Option.some.inj (hs.symm.trans hp))
    exact hw.inside r c hr hc
  · rw [hpin, hs, Option.elim_some]

theorem Follows.event (hw : Pinned rows cols map) (h : Follows bus addr map m rows cols cs a)
    (hdo : TableXPoint.Does a e b) : Follows bus addr map m rows cols (cs ++ e.calls) b := by
  have hnone : ∀ p state, (none : Option (UInt8 × Bool)) = some (p, state) → p < 16 := fun _ _ hs => by cases hs
  cases hdo with
  | switch ht hall => exact h.node hw hall rfl
  | level ht hall => exact h.node hw hall rfl
  | commit => exact h.takes rfl rfl rfl hnone fun d d' hd hpin => hd.congr hpin rfl
  | begin => exact h.takes rfl rfl rfl hnone fun d d' hd hpin => hd.congr hpin rfl
  | lock | exclude | attach => exact h.quiet rfl rfl rfl rfl
  | pulse ht | repulse ht | skip ht | release ht => cases ht.symm.trans h.type

/-- The matrix as it is when its first operation, `begin`, is over. -/
theorem follows_begin (valid : Bool) (pdur : UInt16) (drv : Option DriverRef) :
    Follows bus addr map m rows cols [] ((TableXPoint.init rows cols .nonLatching pdur valid).setDriver drv).1 where
  type := rfl
  rows_eq := rfl
  cols_eq := rfl
  driven := by
    refine ⟨_, _, Machine.run_single rfl, drives_begin (.new (some bus) addr map) m rfl, fun r c h => ?_, fun q => ?_⟩
    · cases h
    · refine iff_of_false ?_ fun ⟨r, c, h, _⟩ => Bool.false_ne_true h
      change ¬(if q < 8 then Bytes.bit 0 q else Bytes.bit 0 (q - 8)) = true
      rw [Bytes.bit_zero, Bytes.bit_zero, ite_self]
      exact Bool.false_ne_true

/-- A matrix of at most 16 nodes has a pin for each, row by row. -/
theorem pinned_rowMajorPin (h : rows.toNat * cols.toNat ≤ 16) : Pinned rows cols (rowMajorPin 0 cols) where
  inside r c hr hc := by
    have hlt :=
      (rowMajorPin_toNat (show (0 : UInt8).toNat + rows.toNat * cols.toNat ≤ 256 by rw [UInt8.toNat_zero]; omega) hr hc).2
    rw [UInt8.toNat_zero, Nat.zero_add] at hlt
    exact UInt8.lt_iff_toNat_lt.mpr (Nat.lt_of_lt_of_le hlt h)
  apart := injects_rowMajorPin (by rw [UInt8.toNat_zero]; omega)

end MCP23017Driver

namespace XPoint
open MCP23017Driver
variable {x : XPoint} {rows cols : UInt8} {pdur : UInt16} {d : DriverRef} {ops : List (Op × Clock)}
  {map : UInt8 → UInt8 → UInt8}

/-- A non-latching matrix that starts with `begin` and keeps an expander attached, whatever it does then and whatever
    the device held before: the pins are outputs before they are driven and stay so, each is high exactly if its node
    is connected, and no single write after `begin` changes another pin than that of its call. -/
theorem run_expander (hw : Pinned rows cols map) (h : Attached rows cols .nonLatching pdur d x)
    (hops : ∀ i ∈ ops, i.1.KeepsDriver d) (millis : Clock) (bus : I2CInterface) (addr : UInt8) (m : MCP23017) :
    ∃ x' log e elog, x.run ((.begin, millis) :: ops) = some (x', log) ∧
      MCP23017Driver.run (.new (some bus) addr map) (driverCalls log) = some (e, elog) ∧
      Directed bus.bus addr m (busWrites elog) ∧
      (∀ p, (m.replay bus.bus addr (busWrites elog)).pin p = true ↔ ∃ r c, x'.tables.conn r c = true ∧ map r c = p) ∧
      Preceded (Steady map bus.bus addr m) elog := by
  obtain ⟨x', log, hrun, -, hfollows⟩ := h.run_keeps (J := Follows bus addr map m rows cols) (P := fun _ _ => True)
    (fun cs a i hJ hd hdrv _ => by
      obtain ⟨es, hes⟩ := TableXPoint.step_events hd i
      exact hes.keeps (by rw [hdrv]; rfl) hd hJ fun _ _ _ _ hJ _ _ hdo => hJ.event hw hdo)
    (fun valid => follows_begin valid pdur (some d)) hops (.of_forall fun _ _ _ => trivial)
  obtain ⟨e, elog, hdriver, hdrives, hshows⟩ := hfollows.driven
  have hbegin : x.step (.begin, millis) = some (x, ⟨none, [.begin]⟩) := by
    obtain ⟨y, -, rfl⟩ := h
    rfl
  refine ⟨x', _, e, elog, Machine.run_cons hbegin hrun, hdriver, hdrives.all_directed, fun p => ?_, hdrives.steady⟩
  rw [hdrives.device]
  exact hshows.pins p

theorem run_expander_four_by_four :
    let map : UInt8 → UInt8 → UInt8 := rowMajorPin 0 4
    let m : MCP23017 := ⟨0xFF, 0xFF, 0x55, 0xAA⟩
    ∃ x, Attached 4 4 .nonLatching 0 0 x ∧ ∃ x' log e elog,
      x.run [(.begin, fun _ => 0), (.connect 2 0, fun _ => 0), (.connect 3 3, fun _ => 0), (.disconnect 2 0, fun _ => 0)] =
        some (x', log) ∧
      MCP23017Driver.run (.new (some ⟨0, true⟩) 0x20 map) (driverCalls log) = some (e, elog) ∧
      Directed 0 0x20 m (busWrites elog) ∧
      (∀ p, (m.replay 0 0x20 (busWrites elog)).pin p = true ↔ ∃ r c, x'.tables.conn r c = true ∧ map r c = p) ∧
      Preceded (Steady map 0 0x20 m) elog := by
  intro map m
  obtain ⟨x, hx⟩ := exists_attached 4 4 .nonLatching 0 0
  have hops : ∀ i ∈ [((.connect 2 0, fun _ => 0) : Op × Clock), (.connect 3 3, fun _ => 0), (.disconnect 2 0, fun _ => 0)],
      i.1.KeepsDriver 0 := by simp [Op.KeepsDriver]
  exact ⟨x, hx, run_expander (show Pinned 4 4 map from pinned_rowMajorPin (by decide)) hx hops (fun _ => 0)
    ⟨0, true⟩ 0x20 m⟩

end XPoint

end Crosspoint
