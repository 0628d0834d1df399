import Crosspoint.Lib.Loops
import Crosspoint.Lib.Traces
import Crosspoint.TCA9548A

/-! The channel cache makes no difference: a cached entry is the content of the multiplexer's control
    register, so a select that is left out would have written what is there already. -/

namespace Crosspoint
open Loops Traces

/-! ### Bus writes and control registers -/

section Bus
variable {regs : Registers} {bus : I2CInterface} {addr reg val : UInt8} {ws vs : List BusWrite}

theorem registers_append : registers regs (ws ++ vs) = registers (registers regs ws) vs := List.foldl_append

theorem deliveries_append : deliveries regs (ws ++ vs) = deliveries regs ws ++ deliveries (registers regs ws) vs := by
  induction ws generalizing regs with
  | nil => rfl
  | cons w ws ih =>
    rw [List.cons_append, deliveries, deliveries, ih]
    split <;> rfl

theorem latch_mux {w : BusWrite} {rest : List UInt8} (h : isMux w.addr = true) (hb : w.bytes = val :: rest) :
    latch regs w = regs.set w.bus w.addr val := by
  rw [latch, h, hb]

theorem latch_other {w : BusWrite} (h : isMux w.addr = false) : latch regs w = regs := by
  rw [latch, h]

theorem latch_select (h : isMux addr = true) : latch regs (bus.writeByte addr val) = regs.set bus.bus addr val := by
  unfold I2CInterface.writeByte
  split
  · exact latch_mux h rfl
  · exact latch_mux h rfl

theorem registers_device (h : isMux addr = false) : registers regs [bus.writeRegister addr reg val] = regs := latch_other h

theorem addr_writeByte : (bus.writeByte addr val).addr = addr := by
  unfold I2CInterface.writeByte
  split <;> rfl

theorem deliveries_select (h : isMux addr = true) :
    deliveries regs (bus.writeByte addr val :: ws) = deliveries (regs.set bus.bus addr val) ws := by
  rw [deliveries, addr_writeByte, h, if_pos rfl, latch_select h]

theorem Registers.set_same (h : regs bus.bus addr = val) : regs.set bus.bus addr val = regs := by
  funext b a
  rw [Registers.set]
  split
  · rename_i heq
    rw [heq.1, heq.2, h]
  · rfl

end Bus

theorem low3_toNat (x : UInt8) : (low3 x).val = x.toNat % 8 := by
  change (x &&& 7).toNat = _
  rw [UInt8.toNat_and]
  exact Nat.and_two_pow_sub_one_eq_mod x.toNat 3

theorem low3_inj {m m' : UInt8} (h : isMux m = true) (h' : isMux m' = true) : low3 m = low3 m' ↔ m = m' := by
  simp only [isMux, Bool.and_eq_true, decide_eq_true_eq, UInt8.le_iff_toNat_le] at h h'
  have h70 : (0x70 : UInt8).toNat = 112 := rfl
  have h77 : (0x77 : UInt8).toNat = 119 := rfl
  rw [Fin.ext_iff, low3_toNat, low3_toNat, ← UInt8.toNat_inj]
  omega

section Mask
variable {b : I2CInterface} {m channel : UInt8} {k : Fin 8}

theorem testBit_channelMask : (TCA9548AInterface.new b m channel).channelMask.toNat.testBit k = true ↔
    k = low3 channel := by
  have hshift : (channel &&& 7).toNat = (low3 channel).val := rfl
  have hmask : (TCA9548AInterface.new b m channel).channelMask.toNat = 2 ^ (low3 channel).val := by
    change ((1 : UInt8) <<< (channel &&& 7)).toNat = _
    rw [UInt8.toNat_shiftLeft, hshift, Nat.mod_eq_of_lt (low3 channel).isLt, UInt8.toNat_one, Nat.one_shiftLeft]
    exact Nat.mod_eq_of_lt (Nat.pow_lt_pow_right (by omega) (low3 channel).isLt)
  rw [hmask, Nat.testBit_two_pow, decide_eq_true_eq, Fin.ext_iff, eq_comm]

/-- A channel mask is never the mark of an unknown channel. -/
theorem channelMask_ne : (TCA9548AInterface.new b m channel).channelMask ≠ 0xFF := fun h => by
  have hbit (k : Fin 8) (hk : (0xFF : UInt8).toNat.testBit k = true) : k = low3 channel := by
    rw [← h] at hk
    exact testBit_channelMask.mp hk
  exact absurd ((hbit 0 rfl).trans (hbit 1 rfl).symm) (by decide)

end Mask

/-! ### Coherence -/

/-- A cached mask is the content of the multiplexer's control register. -/
def ChannelCache.Coherent (cache : ChannelCache) (regs : Registers) (bus : Nat) : Prop :=
  ∀ m, isMux m = true → cache.get (low3 m) ≠ 0xFF → regs bus m = cache.get (low3 m)

section Coherent
variable {b : I2CInterface} {o : TCA9548AInterface} {cache : ChannelCache} {regs : Registers} {devAddr reg val : UInt8}

theorem ChannelCache.get_init {j : Fin 8} : ChannelCache.init.get j = 0xFF := Vector.getElem_replicate ..

theorem coherent_init : ChannelCache.init.Coherent regs b.bus := fun _ _ h => absurd ChannelCache.get_init h

theorem begin_coherent (h : cache.Coherent regs b.bus) : (o.begin cache).1.Coherent regs b.bus := fun m hm hne => by
  rw [TCA9548AInterface.begin, Vector.get_put] at hne ⊢
  split at hne
  · exact absurd rfl hne
  · rename_i hslot
    rw [if_neg hslot]
    exact h m hm hne

/-- Whether the select is sent or left out, the control register holds the channel mask afterwards. -/
theorem selectIfNeeded_registers (ho : o.OnBus b) (h : cache.Coherent regs b.bus) :
    registers regs (o.selectIfNeeded cache).2 = regs.set b.bus o.muxAddr o.channelMask := by
  obtain ⟨hm, channel, hnew⟩ := ho
  have hbus : o.bus = b := by rw [hnew]; rfl
  have hmask : o.channelMask ≠ 0xFF := by rw [hnew]; exact channelMask_ne
  unfold TCA9548AInterface.selectIfNeeded
  split
  · rw [hbus]
    exact latch_select hm
  · rename_i hhit
    have hhit : cache.get (low3 o.muxAddr) = o.channelMask := by simpa using hhit
    exact (Registers.set_same ((h _ hm (hhit ▸ hmask)).trans hhit)).symm

theorem selectIfNeeded_deliveries (hm : isMux o.muxAddr = true) : deliveries regs (o.selectIfNeeded cache).2 = [] := by
  unfold TCA9548AInterface.selectIfNeeded
  split
  · exact deliveries_select hm
  · rfl

theorem selectIfNeeded_get {j : Fin 8} :
    (o.selectIfNeeded cache).1.get j = if low3 o.muxAddr = j then o.channelMask else cache.get j := by
  unfold TCA9548AInterface.selectIfNeeded
  split
  · exact Vector.get_put
  · rename_i hhit
    split
    · rename_i hj
      subst hj
      simpa using hhit
    · rfl

theorem selectIfNeeded_coherent (ho : o.OnBus b) (h : cache.Coherent regs b.bus) :
    (o.selectIfNeeded cache).1.Coherent (regs.set b.bus o.muxAddr o.channelMask) b.bus := fun m hm hne => by
  rw [selectIfNeeded_get] at hne ⊢
  rw [Registers.set]
  simp only [low3_inj ho.1 hm] at hne ⊢
  by_cases hmm : o.muxAddr = m
  · subst hmm
    simp
  · rw [if_neg hmm] at hne
    rw [if_neg hmm, if_neg fun heq => hmm heq.2.symm]
    exact h m hm hne

end Coherent

/-! ### Runs -/

abbrev MuxLog := List (MuxCall × List BusWrite)

section Runs
variable {b : I2CInterface} {cache : ChannelCache} {regs : Registers} {log : MuxLog} {call : MuxCall} {ws : List BusWrite}

theorem traffic_concat : traffic (log ++ [(call, ws)]) = traffic log ++ ws := flatMap_concat

def plainTraffic (log : MuxLog) : List BusWrite := (log.map Prod.fst).flatMap MuxCall.plain

theorem plainTraffic_concat : plainTraffic (log ++ [(call, ws)]) = plainTraffic log ++ call.plain := by
  rw [plainTraffic, List.map_append, List.flatMap_append, List.map_singleton, List.flatMap_singleton]
  rfl

/-- A write is forwarded with the channel of its object selected, and with the other control registers as
    they are without the cache. -/
def Forwards (b : I2CInterface) (regs : Registers) (pre : MuxLog) (e : MuxCall × List BusWrite) : Prop :=
  ∀ o devAddr reg val, e.1 = .writeRegister o devAddr reg val →
    ∃ selects, e.2 = selects ++ [b.writeRegister devAddr reg val] ∧
      registers regs (traffic pre ++ selects) = (registers regs (plainTraffic pre)).set b.bus o.muxAddr o.channelMask

/-- A run so far does to the bus what it does without the cache. -/
structure Transparent (b : I2CInterface) (regs : Registers) (log : MuxLog) (cache : ChannelCache) : Prop where
  coherent : cache.Coherent (registers regs (traffic log)) b.bus
  same : registers regs (traffic log) = registers regs (plainTraffic log)
  delivered : deliveries regs (traffic log) = deliveries regs (plainTraffic log)
  forwards : Preceded (Forwards b regs) log

theorem transparent_init : Transparent b regs [] .init := ⟨coherent_init, rfl, rfl, preceded_nil⟩

theorem Transparent.step (h : Transparent b regs log cache) (hcall : call.Admissible b) :
    Transparent b regs (log ++ [(call, (call.step cache).2)]) (call.step cache).1 := by
  cases call with
  | begin o =>
    have ht : traffic (log ++ [(.begin o, (MuxCall.step cache (.begin o)).2)]) = traffic log := by
      rw [traffic_concat]
      exact List.append_nil _
    refine ⟨?_, ?_, ?_, preceded_concat.mpr ⟨h.forwards, fun _ _ _ _ he => nomatch he⟩⟩
    · rw [ht]
      exact begin_coherent h.coherent
    · rw [ht, plainTraffic_concat, h.same]
      exact congrArg _ (List.append_nil _).symm
    · rw [ht, plainTraffic_concat, h.delivered]
      exact congrArg _ (List.append_nil _).symm
  | writeRegister o devAddr reg val =>
    obtain ⟨ho, hdev⟩ := hcall
    have hbus : o.bus = b := by
      obtain ⟨-, channel, hnew⟩ := ho
      rw [hnew]
      rfl
    have hstep : MuxCall.step cache (.writeRegister o devAddr reg val) =
        ((o.selectIfNeeded cache).1, (o.selectIfNeeded cache).2 ++ [b.writeRegister devAddr reg val]) := by
      rw [← hbus]
      rfl
    have hplain : MuxCall.plain (.writeRegister o devAddr reg val) =
        [b.writeByte o.muxAddr o.channelMask, b.writeRegister devAddr reg val] := by
      rw [← hbus]
      rfl
    have hsel : registers regs (traffic log ++ (o.selectIfNeeded cache).2) =
        (registers regs (traffic log)).set b.bus o.muxAddr o.channelMask := by
      rw [registers_append, selectIfNeeded_registers ho h.coherent]
    rw [hstep]
    refine ⟨?_, ?_, ?_, preceded_concat.mpr ⟨h.forwards, fun o' dev' reg' val' he => ?_⟩⟩
    · rw [traffic_concat, ← List.append_assoc, registers_append, hsel, registers_device hdev]
      exact selectIfNeeded_coherent ho h.coherent
    · rw [traffic_concat, plainTraffic_concat, ← List.append_assoc, registers_append, hsel, registers_append, hplain,
        h.same]
      exact congrArg (fun regs => latch regs (b.writeRegister devAddr reg val)) (latch_select ho.1).symm
    · rw [traffic_concat, plainTraffic_concat, ← List.append_assoc, deliveries_append, hsel, deliveries_append, h.delivered,
        selectIfNeeded_deliveries ho.1, List.append_nil, deliveries_append, hplain, deliveries_select ho.1, h.same]
    · obtain ⟨rfl, rfl, rfl, rfl⟩ := MuxCall.writeRegister.inj he
      exact ⟨_, rfl, hsel.trans (by rw [h.same])⟩

/-! ### When a select is sent -/

/-- What the cache knows of a multiplexer: the mask of the latest select, unless a `begin()` came since. -/
def lastMask (l : List MuxEvent) (m : UInt8) : UInt8 :=
  match lastWhere (MuxEvent.concerns m) l with
  | some (.wrote w) => w.bytes.headD 0xFF
  | _ => 0xFF

section LastMask
variable {l : List MuxEvent} {e : MuxEvent} {m mask : UInt8} {o : TCA9548AInterface}

theorem lastMask_concat (h : e.concerns m = false) : lastMask (l ++ [e]) m = lastMask l m := by
  rw [lastMask, lastWhere_concat, h]
  rfl

theorem lastMask_begun : lastMask (l ++ [.begun o]) o.muxAddr = 0xFF := by
  rw [lastMask, lastWhere_concat, if_pos (by simp [MuxEvent.concerns])]

theorem head_writeByte : (b.writeByte m mask).bytes.headD 0xFF = mask := by
  unfold I2CInterface.writeByte
  split <;> rfl

theorem concerns_select {m' : UInt8} : MuxEvent.concerns m' (.wrote (b.writeByte m mask)) = (m == m') := by
  rw [MuxEvent.concerns, addr_writeByte]

theorem lastMask_select : lastMask (l ++ [.wrote (b.writeByte m mask)]) m = mask := by
  rw [lastMask, lastWhere_concat, concerns_select, if_pos (beq_self_eq_true m)]
  exact head_writeByte

/-- A select goes out only when the latest event of its multiplexer is not a select of the same mask. -/
def NewMask (pre : List MuxEvent) (e : MuxEvent) : Prop :=
  ∀ w, e = .wrote w → isMux w.addr = true →
    ∀ w', lastWhere (MuxEvent.concerns w.addr) pre = some (.wrote w') → w'.bytes.head? ≠ w.bytes.head?

theorem newMask_select (h : lastMask l m ≠ mask) : NewMask l (.wrote (b.writeByte m mask)) := by
  rintro w ⟨⟩ - w' hlast hhead
  rw [addr_writeByte] at hlast
  refine h ?_
  have hheadD : w'.bytes.headD 0xFF = (b.writeByte m mask).bytes.headD 0xFF := by
    rw [List.headD_eq_head?_getD, List.headD_eq_head?_getD, hhead]
  rw [lastMask, hlast]
  exact hheadD.trans head_writeByte

end LastMask

/-- The cache knows the latest select of each multiplexer, and every select so far was new. -/
structure Remembers (log : MuxLog) (cache : ChannelCache) : Prop where
  known : ∀ m, isMux m = true → cache.get (low3 m) = lastMask (muxEvents log) m
  fresh : Preceded NewMask (muxEvents log)

theorem remembers_init : Remembers [] .init := ⟨fun _ _ => ChannelCache.get_init, preceded_nil⟩

theorem selectIfNeeded_remembers {l : List MuxEvent} {o : TCA9548AInterface} (ho : o.OnBus b)
    (hknown : ∀ m, isMux m = true → cache.get (low3 m) = lastMask l m) (hfresh : Preceded NewMask l) :
    (∀ m, isMux m = true →
      (o.selectIfNeeded cache).1.get (low3 m) = lastMask (l ++ (o.selectIfNeeded cache).2.map .wrote) m) ∧
    Preceded NewMask (l ++ (o.selectIfNeeded cache).2.map .wrote) := by
  by_cases hhit : cache.get (low3 o.muxAddr) = o.channelMask
  · have hsel : o.selectIfNeeded cache = (cache, []) := if_neg (not_not.mpr hhit)
    rw [hsel, List.map_nil, List.append_nil]
    exact ⟨hknown, hfresh⟩
  · have hsel : (o.selectIfNeeded cache).2 = [o.bus.writeByte o.muxAddr o.channelMask] := by
      rw [TCA9548AInterface.selectIfNeeded, if_pos hhit]
    rw [hsel, List.map_singleton]
    refine ⟨fun m hm => ?_, preceded_concat.mpr ⟨hfresh, newMask_select (hknown _ ho.1 ▸ hhit)⟩⟩
    rw [selectIfNeeded_get]
    simp only [low3_inj ho.1 hm]
    split
    · rename_i heq
      rw [← heq, lastMask_select]
    · rename_i hne
      rw [lastMask_concat (concerns_select.trans (beq_eq_false_iff_ne.mpr hne))]
      exact hknown m hm

theorem muxEvents_concat : muxEvents (log ++ [(call, ws)]) = muxEvents log ++ call.events ws := flatMap_concat

theorem Remembers.step (h : Remembers log cache) (hcall : call.Admissible b) :
    Remembers (log ++ [(call, (call.step cache).2)]) (call.step cache).1 := by
  cases call with
  | begin o =>
    have hevents : muxEvents (log ++ [(.begin o, (MuxCall.step cache (.begin o)).2)]) = muxEvents log ++ [.begun o] :=
      muxEvents_concat
    refine ⟨fun m hm => ?_, ?_⟩
    · rw [hevents]
      change (Vector.put cache (low3 o.muxAddr) 0xFF).get (low3 m) = _
      rw [Vector.get_put]
      simp only [low3_inj hcall.1 hm]
      split
      · rename_i heq
        rw [← heq, lastMask_begun]
      · rename_i hne
        rw [lastMask_concat (by simpa [MuxEvent.concerns] using hne)]
        exact h.known m hm
    · rw [hevents]
      exact preceded_concat.mpr ⟨h.fresh, fun _ he => nomatch he⟩
  | writeRegister o devAddr reg val =>
    obtain ⟨ho, hdev⟩ := hcall
    let sel := (o.selectIfNeeded cache).2
    have hevents :
        muxEvents (log ++ [(.writeRegister o devAddr reg val, (MuxCall.step cache (.writeRegister o devAddr reg val)).2)]) =
        (muxEvents log ++ sel.map .wrote) ++ [.wrote (o.bus.writeRegister devAddr reg val)] := by
      rw [muxEvents_concat, List.append_assoc]
      exact congrArg _ (List.map_append ..)
    -- The device write itself concerns no multiplexer.
    have hother : ∀ m, isMux m = true → MuxEvent.concerns m (.wrote (o.bus.writeRegister devAddr reg val)) = false :=
      fun m hm => by
        refine beq_eq_false_iff_ne.mpr fun heq => ?_
        rw [show devAddr = m from heq, hm] at hdev
        cases hdev
    have hdevice : NewMask (muxEvents log ++ sel.map .wrote) (.wrote (o.bus.writeRegister devAddr reg val)) := by
      rintro w ⟨⟩ hw
      exact absurd (hdev.symm.trans hw) Bool.false_ne_true
    obtain ⟨hknown, hfresh⟩ := selectIfNeeded_remembers ho h.known h.fresh
    rw [show (MuxCall.step cache (.writeRegister o devAddr reg val)).1 = (o.selectIfNeeded cache).1 from rfl]
    refine ⟨fun m hm => ?_, ?_⟩
    · rw [hevents, lastMask_concat (hother m hm)]
      exact hknown m hm
    · rw [hevents]
      exact preceded_concat.mpr ⟨hfresh, hdevice⟩

/-- Any run on objects over one bus keeps both invariants and never gets stuck. -/
theorem run_transparent (regs : Registers) {calls : List MuxCall} (h : ∀ call ∈ calls, call.Admissible b) :
    ∃ cache log, MuxCall.run .init calls = some (cache, log) ∧ Transparent b regs log cache ∧ Remembers log cache := by
  exact Machine.run_rule (P := fun _ call => call.Admissible b)
    (I := fun log cache => Transparent b regs log cache ∧ Remembers log cache)
    (fun log cache call hI hcall => ⟨_, _, rfl, hI.1.step hcall, hI.2.step hcall⟩)
    ⟨transparent_init, remembers_init⟩ (.of_forall fun call hc _ => h call hc)

theorem plainTraffic_run {calls : List MuxCall} {c : ChannelCache} (h : MuxCall.run c calls = some (cache, log)) :
    plainTraffic log = calls.flatMap MuxCall.plain := congrArg _ (Machine.run_inputs h)

end Runs

/-- With objects over one bus, whatever they are and however their calls interleave, the cache makes no
    difference: every device write finds the channel of its object selected, the device writes and the
    control registers that each of them finds are those of the implementation that always selects, and a
    select is sent only for a new mask, for the first one, or after a `begin()`. -/
theorem cache_transparent (b : I2CInterface) (regs : Registers) (calls : List MuxCall)
    (h : ∀ call ∈ calls, call.Admissible b) :
    ∃ cache log, MuxCall.run .init calls = some (cache, log) ∧
      Preceded (fun pre e => ∀ o devAddr reg val, e.1 = .writeRegister o devAddr reg val →
        ∃ selects, e.2 = selects ++ [b.writeRegister devAddr reg val] ∧
          ∀ channel : UInt8, o = .new b o.muxAddr channel →
            registers regs (traffic pre ++ selects) b.bus o.muxAddr = 1 <<< (channel &&& 7)) log ∧
      deliveries regs (traffic log) = deliveries regs (calls.flatMap MuxCall.plain) ∧
      Preceded NewMask (muxEvents log) := by
  obtain ⟨cache, log, hr, ht, hm⟩ := run_transparent regs h
  refine ⟨cache, log, hr, ?_, plainTraffic_run hr ▸ ht.delivered, hm.fresh⟩
  refine ht.forwards.imp fun pre e _ hf o devAddr reg val he => ?_
  obtain ⟨selects, hws, hregs⟩ := hf o devAddr reg val he
  refine ⟨selects, hws, fun channel ho => ?_⟩
  rw [hregs, Registers.set, if_pos ⟨rfl, rfl⟩, ho]
  rfl

/-- Two channels of one multiplexer and one of another, with a `begin()` in between. -/
theorem cache_transparent_two_muxes :
    let b : I2CInterface := ⟨0, false⟩
    let calls : List MuxCall := [.writeRegister (.new b 0x70 0) 0x20 0 0, .writeRegister (.new b 0x71 3) 0x20 0 0,
      .writeRegister (.new b 0x70 1) 0x20 0 0, .begin (.new b 0x70 0), .writeRegister (.new b 0x70 1) 0x20 1 1]
    ∃ cache log, MuxCall.run .init calls = some (cache, log) ∧
      deliveries (fun _ _ => 0) (traffic log) = deliveries (fun _ _ => 0) (calls.flatMap MuxCall.plain) := by
  intro b calls
  obtain ⟨cache, log, hr, -, hd, -⟩ := cache_transparent b (fun _ _ => 0) calls (by
    simp only [calls, List.forall_mem_cons, List.not_mem_nil, false_imp_iff, implies_true, and_true]
    exact ⟨⟨⟨rfl, 0, rfl⟩, rfl⟩, ⟨⟨rfl, 3, rfl⟩, rfl⟩, ⟨⟨rfl, 1, rfl⟩, rfl⟩, ⟨rfl, 0, rfl⟩, ⟨rfl, 1, rfl⟩, rfl⟩)
  exact ⟨cache, log, hr, hd⟩

end Crosspoint
