import Crosspoint.Stack
import Crosspoint.Theorems.MCP23017
import Crosspoint.Theorems.TCA9548A

/-! Stations on one bus do not disturb each other: whatever the order of their calls, each matrix and its expander
    come through a run as they would alone on a bus of their own. -/

namespace Crosspoint
open Loops Traces

/-! ### The bus -/

section Place
variable {bus : Nat} {p : Place} {n : Segmented} {regs : Registers} {w : BusWrite} {ws vs : List BusWrite}

theorem Place.hears_iff : p.hears bus regs w = true ↔
    (w.bus = bus ∧ w.addr = p.addr) ∧ isMux p.mux = true ∧ (regs bus p.mux).toNat.testBit (low3 p.channel) = true := by
  simp only [hears, Bool.and_eq_true, beq_iff_eq, and_assoc]

theorem Place.received_append :
    p.received bus regs (ws ++ vs) = p.received bus regs ws ++ p.received bus (registers regs ws) vs := by
  induction ws generalizing regs with
  | nil => rfl
  | cons w ws ih =>
    have hrest : p.received bus (latch regs w) (ws ++ vs) = _ := ih
    simp only [List.cons_append, received, hrest]
    split <;> rfl

theorem Place.received_single : p.received bus regs [w] = if p.hears bus regs w then [w] else [] := rfl

/-- A write to another address passes a place by. -/
theorem Place.received_other (h : ∀ w ∈ ws, w.addr ≠ p.addr) : p.received bus regs ws = [] := by
  induction ws generalizing regs with
  | nil => rfl
  | cons w ws ih =>
    have hdeaf : ¬p.hears bus regs w = true := fun hw => h w List.mem_cons_self (hears_iff.mp hw).1.2
    rw [received, if_neg hdeaf]
    exact ih fun w hw => h w (List.mem_cons_of_mem _ hw)

/-- So selecting a channel reaches no expander. -/
theorem Place.received_selects (hp : isMux p.addr = false) (hws : ∀ w ∈ ws, isMux w.addr = true) :
    p.received bus regs ws = [] :=
  received_other fun w hw heq => by
    have hmux := hws w hw
    rw [heq, hp] at hmux
    cases hmux

theorem Segmented.expander_take : (n.take bus w).expander p =
    if p.hears bus n.regs w then (n.expander p).take bus p.addr w else n.expander p := by
  have hdevice : (n.take bus w).expander p =
      if (isMux p.mux && (n.regs bus p.mux).toNat.testBit (low3 p.channel)) = true then (n.expander p).take bus p.addr w
      else n.expander p := rfl
  rw [hdevice]
  by_cases haddr : w.bus = bus ∧ w.addr = p.addr
  · refine if_congr ?_ rfl rfl
    rw [Place.hears_iff, Bool.and_eq_true_iff]
    exact (and_iff_right haddr).symm
  · have hpass : (n.expander p).take bus p.addr w = n.expander p := if_neg haddr
    rw [hpass, ite_self, ite_self]

/-- An expander goes through the writes that arrive at its place. -/
theorem Segmented.expander_replay :
    (n.replay bus ws).expander p = (n.expander p).replay bus p.addr (p.received bus n.regs ws) := by
  induction ws generalizing n with
  | nil => rfl
  | cons w ws ih =>
    have hrest : (n.replay bus (w :: ws)).expander p =
        ((n.take bus w).expander p).replay bus p.addr (p.received bus (latch n.regs w) ws) := ih
    rw [hrest, expander_take, Place.received]
    split <;> rfl

end Place

section Bus
variable {κ : Type} {b : I2CInterface} {places : κ → Place} {cache : ChannelCache} {regs : Registers} {j k : κ}
  {w : BusWrite} {ws : List BusWrite} {o : TCA9548AInterface}

theorem selectIfNeeded_mux (ho : o.OnBus b) : ∀ w ∈ (o.selectIfNeeded cache).2, isMux w.addr = true := by
  intro w hw
  unfold TCA9548AInterface.selectIfNeeded at hw
  split at hw
  · rw [List.mem_singleton.mp hw, addr_writeByte]
    exact ho.1
  · cases hw

/-- The writes are register writes for the expander of the place. -/
def Place.Owns (p : Place) (b : I2CInterface) (ws : List BusWrite) : Prop :=
  ∀ w ∈ ws, ∃ reg val, w = b.writeRegister p.addr reg val

theorem Wiring.onBus (hw : Wiring places) (k : κ) : ((places k).port b).OnBus b := ⟨hw.mux k, (places k).channel, rfl⟩

/-- When a write of station `j` goes out, it arrives at the expander of station `j` and at no other. -/
theorem Wiring.hears_iff (hwire : Wiring places) (hregs : regs b.bus (places j).mux = ((places j).port b).channelMask)
    (reg val : UInt8) (k : κ) :
    (places k).hears b.bus regs (b.writeRegister (places j).addr reg val) = true ↔ k = j := by
  rw [Place.hears_iff]
  constructor
  · rintro ⟨⟨-, haddr⟩, -, hbit⟩
    by_contra hkj
    -- Another expander of this address is behind a channel that is off.
    obtain ⟨hmux, hchannel⟩ := hwire.apart j k (Ne.symm hkj) haddr
    rw [← hmux, hregs] at hbit
    exact hchannel (testBit_channelMask.mp hbit).symm
  · rintro rfl
    refine ⟨⟨rfl, rfl⟩, hwire.mux k, ?_⟩
    rw [hregs]
    exact testBit_channelMask.mpr rfl

variable [DecidableEq κ]

theorem forward_write (hwire : Wiring places) (h : cache.Coherent regs b.bus) (j : κ) (reg val : UInt8) :
    ∃ cache' log, MuxCall.run cache (((places j).port b).forward (b.writeRegister (places j).addr reg val)) =
        some (cache', log) ∧
      cache'.Coherent (registers regs (traffic log)) b.bus ∧
      ∀ k, (places k).received b.bus regs (traffic log) =
        if k = j then [b.writeRegister (places j).addr reg val] else [] := by
  let o := (places j).port b
  have ho : o.OnBus b := hwire.onBus j
  have hsel : registers regs (o.selectIfNeeded cache).2 = regs.set b.bus o.muxAddr o.channelMask :=
    selectIfNeeded_registers ho h
  let ws := (o.selectIfNeeded cache).2 ++ [b.writeRegister (places j).addr reg val]
  have hlog : traffic [(.writeRegister o (places j).addr reg val, ws)] = ws := List.flatMap_singleton ..
  refine ⟨(o.selectIfNeeded cache).1, [(.writeRegister o (places j).addr reg val, ws)], rfl, ?_, fun k => ?_⟩
  · rw [hlog, registers_append, hsel, registers_device (hwire.addr j)]
    exact selectIfNeeded_coherent ho h
  · have hregs : registers regs (o.selectIfNeeded cache).2 b.bus (places j).mux = o.channelMask := by
      rw [hsel]
      exact if_pos ⟨rfl, rfl⟩
    rw [hlog, Place.received_append, Place.received_selects (hwire.addr k) (selectIfNeeded_mux ho), List.nil_append,
      Place.received_single]
    exact if_congr (hwire.hears_iff hregs reg val k) rfl rfl

/-- What station `j` writes through its interface arrives at its expander, in order, and nowhere else. -/
theorem forward_writes (hwire : Wiring places) (h : cache.Coherent regs b.bus) (j : κ) (hws : (places j).Owns b ws) :
    ∃ cache' log, MuxCall.run cache (ws.flatMap ((places j).port b).forward) = some (cache', log) ∧
      cache'.Coherent (registers regs (traffic log)) b.bus ∧
      ∀ k, (places k).received b.bus regs (traffic log) = if k = j then ws else [] := by
  induction ws generalizing cache regs with
  | nil => exact ⟨cache, [], rfl, h, fun k => (ite_self _).symm⟩
  | cons w ws ih =>
    obtain ⟨reg, val, rfl⟩ := hws w List.mem_cons_self
    obtain ⟨cache₁, log₁, hrun₁, hcoh₁, hrec₁⟩ := forward_write hwire h j reg val
    obtain ⟨cache₂, log₂, hrun₂, hcoh₂, hrec₂⟩ := ih hcoh₁ fun w hw => hws w (List.mem_cons_of_mem _ hw)
    have htraffic : traffic (log₁ ++ log₂) = traffic log₁ ++ traffic log₂ := List.flatMap_append
    refine ⟨cache₂, log₁ ++ log₂, ?_, ?_, fun k => ?_⟩
    · rw [List.flatMap_cons]
      exact Machine.run_append hrun₁ hrun₂
    · rw [htraffic, registers_append]
      exact hcoh₂
    · rw [htraffic, Place.received_append, hrec₁, hrec₂]
      split <;> rfl

end Bus

/-! ### The stations -/

section Station
variable {b : I2CInterface} {p : Place} {s s' : Station} {d : MCP23017Driver}

theorem Place.Owns.append {ws vs : List BusWrite} (hws : p.Owns b ws) (hvs : p.Owns b vs) : p.Owns b (ws ++ vs) :=
  fun w hw => by
  rcases List.mem_append.mp hw with hw | hw
  · exact hws w hw
  · exact hvs w hw

/-- The driver was constructed for the place. -/
structure MCP23017Driver.Serves (b : I2CInterface) (p : Place) (d : MCP23017Driver) : Prop where
  i2c : d.i2c = some b
  addr : d.addr = p.addr

theorem MCP23017Driver.Serves.handle (h : d.Serves b p) (call : DriverCall) :
    (d.handle call).1.Serves b p ∧ p.Owns b (d.handle call).2 := by
  obtain ⟨hi, haddr, -⟩ := d.handle_wiring call
  refine ⟨⟨hi.trans h.i2c, haddr.trans h.addr⟩, fun w hw => ?_⟩
  rw [← h.addr, ← haddr]
  cases MCP23017Driver.handle_sends h.i2c hw with
  | iodira | iodirb | olata | olatb => exact ⟨_, _, rfl⟩

theorem MCP23017Driver.Serves.run (h : d.Serves b p) (calls : List DriverCall) :
    ∃ d' log, d.run calls = some (d', log) ∧ d'.Serves b p ∧ p.Owns b (busWrites log) :=
  Machine.run_rule (P := fun _ _ => True) (I := fun log (d : MCP23017Driver) => d.Serves b p ∧ p.Owns b (busWrites log))
    (fun log d call hI _ => by
      obtain ⟨hserves, howns⟩ := hI.1.handle call
      refine ⟨_, _, rfl, hserves, ?_⟩
      rw [MCP23017Driver.busWrites_concat]
      exact hI.2.append howns)
    ⟨h, fun w hw => absurd hw List.not_mem_nil⟩ (.of_forall fun _ _ _ => trivial)

/-- A station at its place. -/
structure Station.At (b : I2CInterface) (p : Place) (s : Station) : Prop where
  wellFormed : s.matrix.WellFormed
  serves : s.driver.Serves b p

theorem Station.step_eq_some {i : Op × Clock} {rep : StationReply} (h : s.step i = some (s', rep)) :
    s.matrix.step i = some (s'.matrix, rep.rep) ∧
      ∃ log, s.driver.run rep.rep.calls = some (s'.driver, log) ∧ rep.writes = busWrites log := by
  simp only [Station.step, Option.bind_eq_bind, Option.bind_eq_some_iff, Option.pure_def, Option.some.injEq, Prod.mk.injEq,
    Prod.exists] at h
  obtain ⟨matrix, r, hmatrix, driver, log, hdriver, rfl, rfl⟩ := h
  exact ⟨hmatrix, log, hdriver, rfl⟩

theorem Station.At.step (h : s.At b p) (i : Op × Clock) :
    ∃ s' rep, s.step i = some (s', rep) ∧ s'.At b p ∧ p.Owns b rep.writes := by
  obtain ⟨x', rep, hmatrix, hwf, -⟩ := XPoint.step_matches h.wellFormed i
  obtain ⟨d', log, hdriver, hserves, howns⟩ := h.serves.run rep.calls
  refine ⟨⟨x', d'⟩, ⟨rep, busWrites log⟩, ?_, ⟨hwf, hserves⟩, howns⟩
  rw [Station.step, hmatrix]
  exact congrArg (Option.bind · _) hdriver

/-- The matrix of a station runs as it would without the driver, and the driver takes the calls of the whole run. -/
theorem Station.run_split {ops : List (Op × Clock)} {log : List ((Op × Clock) × StationReply)}
    (h : s.run ops = some (s', log)) :
    ∃ mlog dlog, s.matrix.run ops = some (s'.matrix, mlog) ∧ s.driver.run (driverCalls mlog) = some (s'.driver, dlog) ∧
      stationWrites log = busWrites dlog := by
  induction ops generalizing s log with
  | nil =>
    obtain ⟨rfl, rfl⟩ : s = s' ∧ [] = log := by simpa using h
    exact ⟨[], [], rfl, rfl, rfl⟩
  | cons i ops ih =>
    obtain ⟨t, rep, rest, hstep, hrest, rfl⟩ := Machine.run_cons_eq_some.mp h
    obtain ⟨hmatrix, dlog, hdriver, hwrites⟩ := Station.step_eq_some hstep
    obtain ⟨mlog, dlog', hmatrix', hdriver', hwrites'⟩ := ih hrest
    refine ⟨(i, rep.rep) :: mlog, dlog ++ dlog', Machine.run_cons hmatrix hmatrix', ?_, ?_⟩
    · rw [driverCalls, List.flatMap_cons]
      exact Machine.run_append hdriver hdriver'
    · rw [stationWrites, List.flatMap_cons, hwrites, busWrites, busWrites, List.flatMap_append]
      exact congrArg _ hwrites'

end Station

section Expander
variable {x : XPoint} {rows cols : UInt8} {pdur : UInt16} {d : DriverRef} {map : UInt8 → UInt8 → UInt8}
  {ops : List (Op × Clock)}

/-- A non-latching matrix that begins first, on a driver of its own. -/
theorem XPoint.Attached.run_follows (hw : Pinned rows cols map) (h : Attached rows cols .nonLatching pdur d x)
    (hops : ∀ i ∈ ops, i.1.KeepsDriver d) (millis : Clock) (bus : I2CInterface) (addr : UInt8) (m : MCP23017) :
    ∃ x' log e elog, x.run ((.begin, millis) :: ops) = some (x', log) ∧
      MCP23017Driver.run (.new (some bus) addr map) (driverCalls log) = some (e, elog) ∧
      MCP23017Driver.Drives bus addr map m elog e ∧ MCP23017Driver.Shows rows cols map e x'.tables := by
  obtain ⟨x', log, hrun, -, hfollows⟩ := h.run_keeps (J := MCP23017Driver.Follows bus addr map m rows cols)
    (P := fun _ _ => True)
    (fun cs a i hJ hd hdrv _ => by
      obtain ⟨es, hes⟩ := TableXPoint.step_events hd i
      exact hes.keeps (by rw [hdrv]; rfl) hd hJ fun _ _ _ _ hJ _ _ hdo => hJ.event hw hdo)
    (fun valid => MCP23017Driver.follows_begin valid pdur (some d)) hops (.of_forall fun _ _ _ => trivial)
  obtain ⟨e, elog, hdriver, hdrives, hshows⟩ := hfollows.driven
  have hbegin : x.step (.begin, millis) = some (x, ⟨none, [.begin]⟩) := by
    obtain ⟨y, -, rfl⟩ := h
    rfl
  exact ⟨x', _, e, elog, Machine.run_cons hbegin hrun, hdriver, hdrives, hshows⟩

end Expander

/-! ### The stack -/

theorem stackTraffic_concat {κ : Type} {log : List (StackOp κ × StackReply)} {e : StackOp κ × StackReply} :
    stackTraffic (log ++ [e]) = stackTraffic log ++ e.2.traffic := flatMap_concat

namespace Stack
variable {κ : Type} [DecidableEq κ] {b : I2CInterface} {places : κ → Place} {regs : Registers} {s t : Stack κ} {j k : κ}
  {i : Op × Clock} {o : StackReply} {log : List (StackOp κ × StackReply)} {ops : List (StackOp κ)}

theorem step_matrix (h : step b places s (.matrix k i) = some (t, o)) :
    ∃ station cache log, (s.stations k).step i = some (station, o.own) ∧
      MuxCall.run s.cache (o.own.writes.flatMap ((places k).port b).forward) = some (cache, log) ∧
      t = ⟨Function.update s.stations k station, cache⟩ ∧ o.traffic = Crosspoint.traffic log := by
  simp only [step, Option.bind_eq_bind, Option.bind_eq_some_iff, Option.pure_def, Option.some.injEq, Prod.mk.injEq,
    Prod.exists] at h
  obtain ⟨station, rep, hstation, cache, log, hrun, rfl, rfl⟩ := h
  exact ⟨station, cache, log, hstation, hrun, rfl, rfl⟩

/-- A call is a step of its own station, and no other station notices it. -/
theorem projects (k : κ) : Machine.Projects (step b places) Station.step (fun s => s.stations k)
    (StackOp.of k) StackReply.own where
  hidden s call t o hstep hkey := by
    cases call with
    | port j =>
      obtain ⟨rfl, -⟩ := Prod.mk.inj (Option.some.inj hstep)
      rfl
    | matrix j i =>
      obtain ⟨station, cache, log, -, -, rfl, -⟩ := step_matrix hstep
      have hjk : j ≠ k := fun heq => by
        rw [StackOp.of, if_pos heq] at hkey
        cases hkey
      exact Function.update_of_ne hjk.symm ..
  seen s call t o own hstep hkey := by
    cases call with
    | port j => cases hkey
    | matrix j i =>
      obtain ⟨station, cache, log, hstation, -, rfl, -⟩ := step_matrix hstep
      rw [StackOp.of] at hkey
      split at hkey
      · rename_i hjk
        obtain rfl := Option.some.inj hkey
        subst hjk
        dsimp only
        rw [Function.update_self]
        exact hstation
      · cases hkey

/-- What holds after a run so far, on a bus whose control registers were `regs` at first: every expander got the writes of
    its own station, and no others. -/
structure Isolates (b : I2CInterface) (places : κ → Place) (regs : Registers) (log : List (StackOp κ × StackReply))
    (s : Stack κ) : Prop where
  stations : ∀ k, (s.stations k).At b (places k)
  coherent : s.cache.Coherent (registers regs (stackTraffic log)) b.bus
  received : ∀ k, (places k).received b.bus regs (stackTraffic log) = stationWrites (ownLog k log)

theorem stationWrites_concat {call : StackOp κ} (k : κ) : stationWrites (ownLog k (log ++ [(call, o)])) =
    stationWrites (ownLog k log) ++ if (StackOp.of k call).isSome then o.own.writes else [] := by
  rw [ownLog, List.filterMap_append, stationWrites, List.flatMap_append]
  refine congrArg _ ?_
  cases hk : StackOp.of k call with
  | none =>
    have hentry : Machine.seenEntry (StackOp.of k) StackReply.own (call, o) = none := by
      rw [Machine.seenEntry, hk, Option.map_none]
    rw [List.filterMap_cons_none hentry]
    rfl
  | some i =>
    have hentry : Machine.seenEntry (StackOp.of k) StackReply.own (call, o) = some (i, o.own) := by
      rw [Machine.seenEntry, hk, Option.map_some]
    rw [List.filterMap_cons_some hentry]
    exact List.flatMap_singleton ..

theorem Isolates.step (hwire : Wiring places) (h : Isolates b places regs log s) (call : StackOp κ) :
    ∃ t o, Stack.step b places s call = some (t, o) ∧ Isolates b places regs (log ++ [(call, o)]) t := by
  cases call with
  | port j =>
    refine ⟨_, _, rfl, h.stations, ?_, fun k => ?_⟩
    · rw [stackTraffic_concat]
      exact (List.append_nil (stackTraffic log)).symm ▸ begin_coherent h.coherent
    · rw [stackTraffic_concat, stationWrites_concat]
      exact (List.append_nil (stackTraffic log)).symm ▸ (h.received k).trans (List.append_nil _).symm
  | matrix j i =>
    obtain ⟨station, rep, hstation, hat, howns⟩ := (h.stations j).step i
    obtain ⟨cache, mlog, hrun, hcoh, hrec⟩ := forward_writes hwire h.coherent j howns
    refine ⟨⟨Function.update s.stations j station, cache⟩, ⟨rep, traffic mlog⟩, ?_, fun k => ?_, ?_, fun k => ?_⟩
    · rw [Stack.step, hstation]
      exact congrArg (Option.bind · _) hrun
    · by_cases hkj : k = j
      · subst hkj
        dsimp only
        rw [Function.update_self]
        exact hat
      · dsimp only
        rw [Function.update_of_ne hkj]
        exact h.stations k
    · rw [stackTraffic_concat, registers_append]
      exact hcoh
    · rw [stackTraffic_concat, Place.received_append, hrec, stationWrites_concat, h.received, StackOp.of]
      by_cases hkj : k = j
      · rw [if_pos hkj, if_pos hkj.symm]
        rfl
      · rw [if_neg hkj, if_neg (Ne.symm hkj)]
        rfl

/-- The stack as it is constructed: the cache knows no channel yet. -/
def new (b : I2CInterface) (places : κ → Place) (maps : κ → UInt8 → UInt8 → UInt8) (x : κ → XPoint) : Stack κ where
  stations k := ⟨x k, (places k).driver b (maps k)⟩
  cache := .init

/-- Whatever the order of the calls, and whatever the control registers and expanders held before: each station runs as
    it would on its own, the writes that arrive at its expander are its own, in order, and they make the expander what it
    is. -/
theorem run_isolates (hwire : Wiring places) (maps : κ → UInt8 → UInt8 → UInt8) {x : κ → XPoint}
    (hx : ∀ k, (x k).WellFormed) (n : Segmented) (ops : List (StackOp κ)) :
    ∃ s log, run b places (new b places maps x) ops = some (s, log) ∧ ∀ k,
      Station.run ⟨x k, (places k).driver b (maps k)⟩ (ops.filterMap (StackOp.of k)) = some (s.stations k, ownLog k log) ∧
      (places k).received b.bus n.regs (stackTraffic log) = stationWrites (ownLog k log) ∧
      (n.replay b.bus (stackTraffic log)).expander (places k) =
        (n.expander (places k)).replay b.bus (places k).addr (stationWrites (ownLog k log)) := by
  have hnew : Isolates b places n.regs [] (new b places maps x) :=
    ⟨fun k => ⟨hx k, rfl, rfl⟩, coherent_init, fun _ => rfl⟩
  obtain ⟨s, log, hrun, hs⟩ := Machine.run_rule (P := fun _ _ => True) (fun _ _ call h _ => h.step hwire call) hnew
    (show Machine.Along (step b places) (fun _ _ => True) _ ops from .of_forall fun _ _ _ => trivial)
  refine ⟨s, log, hrun, fun k => ⟨(projects k).run hrun, hs.received k, ?_⟩⟩
  rw [Segmented.expander_replay, hs.received]

/-- Two expanders of one address on one multiplexer and a third one on another, with a driver on every matrix and the second
    driven before it begins. -/
theorem run_isolates_two_muxes :
    let b : I2CInterface := ⟨0, true⟩
    let places : Fin 3 → Place := fun k => if k = 2 then ⟨0x71, 1, 0x21⟩ else ⟨0x70, UInt8.ofNat k.val, 0x20⟩
    let maps : Fin 3 → UInt8 → UInt8 → UInt8 := fun _ => rowMajorPin 0 2
    let n : Segmented := ⟨fun _ _ => 0xFF, fun _ _ _ => ⟨0xFF, 0xFF, 0x55, 0xAA⟩⟩
    ∃ x s log, XPoint.Attached 2 2 .latchingDualCoil 5 0 x ∧ run b places (new b places maps fun _ => x)
      [.matrix 0 (.begin, fun _ => 0), .matrix 1 (.connect 0 1, fun _ => 0), .port 0, .matrix 2 (.begin, fun _ => 1),
        .matrix 0 (.connect 1 1, fun _ => 1)] = some (s, log) ∧
      ∀ k, (places k).received b.bus n.regs (stackTraffic log) = stationWrites (ownLog k log) ∧
        (n.replay b.bus (stackTraffic log)).expander (places k) =
          (n.expander (places k)).replay b.bus (places k).addr (stationWrites (ownLog k log)) := by
  intro b places maps n
  obtain ⟨x, hx⟩ := XPoint.exists_attached 2 2 .latchingDualCoil 5 0
  obtain ⟨s, log, hrun, hs⟩ := run_isolates (b := b)
    (show Wiring places from ⟨by decide, by decide, by decide⟩) maps (fun _ => hx.spec.1) n
    [.matrix 0 (.begin, fun _ => 0), .matrix 1 (.connect 0 1, fun _ => 0), .port 0, .matrix 2 (.begin, fun _ => 1),
      .matrix 0 (.connect 1 1, fun _ => 1)]
  exact ⟨x, s, log, hx, hrun, fun k => (hs k).2⟩

/-- Non-latching matrices that keep their drivers: whatever the other stations do, the expander of a station that begins
    first has its pins as outputs, and each is high exactly if its node is connected. -/
theorem run_mirrors {rows cols : κ → UInt8} {pdur : κ → UInt16} {d : κ → DriverRef} {maps : κ → UInt8 → UInt8 → UInt8}
    {x : κ → XPoint} (hwire : Wiring places) (hmaps : ∀ k, Pinned (rows k) (cols k) (maps k))
    (hx : ∀ k, XPoint.Attached (rows k) (cols k) .nonLatching (pdur k) (d k) (x k))
    (hops : ∀ call ∈ ops, call.KeepsDrivers d) (n : Segmented) :
    ∃ s log, run b places (new b places maps x) ops = some (s, log) ∧
      ∀ k millis rest, ops.filterMap (StackOp.of k) = (.begin, millis) :: rest →
        ((n.replay b.bus (stackTraffic log)).expander (places k)).Outputs ∧
        ∀ p, ((n.replay b.bus (stackTraffic log)).expander (places k)).pin p = true ↔
          ∃ r c, (s.stations k).matrix.tables.conn r c = true ∧ maps k r c = p := by
  obtain ⟨s, log, hrun, hs⟩ := run_isolates (b := b) hwire maps (fun k => (hx k).spec.1) n ops
  refine ⟨s, log, hrun, fun k millis rest hk => ?_⟩
  obtain ⟨hstation, -, hexp⟩ := hs k
  have hrest : ∀ i ∈ rest, i.1.KeepsDriver (d k) := fun i hi => by
    obtain ⟨call, hcall, hof⟩ := List.mem_filterMap.mp (hk ▸ List.mem_cons_of_mem _ hi)
    cases call with
    | port j => cases hof
    | matrix j i' =>
      rw [StackOp.of] at hof
      split at hof
      · rename_i hjk
        obtain rfl := Option.some.inj hof
        exact hjk ▸ hops _ hcall
      · cases hof
  obtain ⟨mlog, dlog, hmatrix, hdriver, hwrites⟩ := Station.run_split hstation
  obtain ⟨x', mlog', e, elog, hmatrix', hdriver', hdrives, hshows⟩ :=
    (hx k).run_follows (hmaps k) hrest millis b (places k).addr (n.expander (places k))
  rw [hk] at hmatrix
  obtain ⟨rfl, rfl⟩ := Prod.mk.inj (Option.some.inj (hmatrix'.symm.trans hmatrix))
  obtain ⟨rfl, rfl⟩ := Prod.mk.inj (Option.some.inj (hdriver'.symm.trans hdriver))
  rw [hexp, hwrites, hdrives.device]
  exact ⟨⟨rfl, rfl⟩, hshows.pins⟩

/-- Two stations on one channel each, whose calls alternate. -/
theorem run_mirrors_two_channels :
    let b : I2CInterface := ⟨0, false⟩
    let places : Fin 2 → Place := fun k => ⟨0x70, UInt8.ofNat k.val, 0x20⟩
    let maps : Fin 2 → UInt8 → UInt8 → UInt8 := fun _ => rowMajorPin 0 8
    let n : Segmented := ⟨fun _ _ => 0xFF, fun _ _ _ => ⟨0xFF, 0xFF, 0x55, 0xAA⟩⟩
    ∃ x, XPoint.Attached 2 8 .nonLatching 0 0 x ∧ ∃ s log, run b places (new b places maps fun _ => x)
      [.matrix 0 (.begin, fun _ => 0), .matrix 1 (.begin, fun _ => 0), .matrix 0 (.connect 1 7, fun _ => 0),
        .matrix 1 (.connect 0 1, fun _ => 0)] = some (s, log) ∧
      ∀ k p, ((n.replay b.bus (stackTraffic log)).expander (places k)).pin p = true ↔
        ∃ r c, (s.stations k).matrix.tables.conn r c = true ∧ maps k r c = p := by
  intro b places maps n
  obtain ⟨x, hx⟩ := XPoint.exists_attached 2 8 .nonLatching 0 0
  obtain ⟨s, log, hrun, hs⟩ := run_mirrors (b := b) (d := fun _ => 0)
    (show Wiring places from ⟨by decide, by decide, by decide⟩)
    (fun k => (show Pinned 2 8 (maps k) from MCP23017Driver.pinned_rowMajorPin (by decide))) (fun _ => hx)
    (show ∀ call ∈ [(.matrix 0 (.begin, fun _ => 0) : StackOp (Fin 2)), .matrix 1 (.begin, fun _ => 0),
      .matrix 0 (.connect 1 7, fun _ => 0), .matrix 1 (.connect 0 1, fun _ => 0)], call.KeepsDrivers fun _ => 0 by
      simp [StackOp.KeepsDrivers, Op.KeepsDriver]) n
  refine ⟨x, hx, s, log, hrun, fun k => ?_⟩
  rcases Fin.exists_fin_two.mp ⟨k, rfl⟩ with rfl | rfl
  · exact (hs 0 _ _ rfl).2
  · exact (hs 1 _ _ rfl).2

end Stack

end Crosspoint
