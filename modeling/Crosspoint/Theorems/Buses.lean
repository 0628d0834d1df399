import Crosspoint.Theorems.TCA9548A

/-! Multiplexers on several buses. The channel cache knows a multiplexer by its address alone, so the
    multiplexers of one address share an entry of it, whatever bus they are on, and a select may be left out
    because the same channel was selected on another bus. -/

namespace Crosspoint
open Loops Traces

namespace MuxCall

/-- The call is on an object with a multiplexer of this address. -/
def concerns (muxAddr : UInt8) : MuxCall → Bool
  | .begin o => o.muxAddr == muxAddr
  | .writeRegister o _ _ _ => o.muxAddr == muxAddr

/-- The call is a write through the multiplexer of this address on this bus. -/
def writesOn (bus : Nat) (muxAddr : UInt8) : MuxCall → Bool
  | .begin _ => false
  | .writeRegister o _ _ _ => o.bus.bus == bus && o.muxAddr == muxAddr

def mask? : MuxCall → Option UInt8
  | .begin _ => none
  | .writeRegister o _ _ _ => some o.channelMask

/-- Each object is begun before its first write. -/
def BegunFirst (calls : List MuxCall) : Prop :=
  Preceded (fun pre call => ∀ o devAddr reg val, call = .writeRegister o devAddr reg val → .begin o ∈ pre) calls

/-- No other bus stands between a write and its select: the latest call on a multiplexer of its address is no
    write with its channel, or the latest write through its own multiplexer is one. -/
def Separate (pre : List MuxCall) (call : MuxCall) : Prop :=
  ∀ o devAddr reg val, call = .writeRegister o devAddr reg val →
    (lastWhere (concerns o.muxAddr) pre).bind mask? ≠ some o.channelMask ∨
      (lastWhere (writesOn o.bus.bus o.muxAddr) pre).bind mask? = some o.channelMask

end MuxCall

/-- The multiplexer at the address of the object, on the bus of the object, has its channel selected. -/
def TCA9548AInterface.Selected (o : TCA9548AInterface) (regs : Registers) : Prop :=
  regs o.bus.bus o.muxAddr &&& o.channelMask ≠ 0

/-- At the moment a write is forwarded, the channel of its object is selected. The control registers are 0 at first. -/
def Delivers (pre : MuxLog) (e : MuxCall × List BusWrite) : Prop :=
  ∀ o devAddr reg val, e.1 = .writeRegister o devAddr reg val → ∃ selects,
    e.2 = selects ++ [o.bus.writeRegister devAddr reg val] ∧
      o.Selected (registers (fun _ _ => 0) (traffic pre ++ selects))

section Mask
variable {b b' : I2CInterface} {o o' : TCA9548AInterface}

theorem channelMask_and (ho : o.OnBus b) (ho' : o'.OnBus b') :
    o'.channelMask &&& o.channelMask ≠ 0 ↔ o'.channelMask = o.channelMask := by
  have hmasks : ∀ i j : Fin 8, ((1 : UInt8) <<< UInt8.ofNat i.val) &&& (1 <<< UInt8.ofNat j.val) ≠ 0 ↔
      (1 : UInt8) <<< UInt8.ofNat i.val = 1 <<< UInt8.ofNat j.val := by decide
  have hlow : ∀ channel : UInt8, UInt8.ofNat (low3 channel).val = channel &&& 7 := fun _ => UInt8.ofNat_toNat
  obtain ⟨-, channel, h⟩ := ho
  obtain ⟨-, channel', h'⟩ := ho'
  have := hmasks (low3 channel') (low3 channel)
  rw [hlow, hlow] at this
  rw [h, h']
  exact this

end Mask

/-! ### What the cache and the control registers hold -/

section Runs
variable {b : I2CInterface} {cache : ChannelCache} {log : MuxLog} {call : MuxCall} {ws : List BusWrite}
  {o : TCA9548AInterface} {devAddr reg val m : UInt8} {bus : Nat}

/-- The calls of a log. -/
def callsOf (log : MuxLog) : List MuxCall := log.map Prod.fst

theorem callsOf_concat : callsOf (log ++ [(call, ws)]) = callsOf log ++ [call] := List.map_append ..

/-- The cache holds the channel of the latest call on a multiplexer of each address, if that is a write. -/
def Cached (log : MuxLog) (cache : ChannelCache) : Prop :=
  ∀ m, isMux m = true → cache.get (low3 m) = ((lastWhere (MuxCall.concerns m) (callsOf log)).bind MuxCall.mask?).getD 0xFF

/-- The control registers hold the channel of the latest write through each multiplexer. -/
def Written (log : MuxLog) : Prop :=
  ∀ bus m, isMux m = true → registers (fun _ _ => 0) (traffic log) bus m =
    ((lastWhere (MuxCall.writesOn bus m) (callsOf log)).bind MuxCall.mask?).getD 0

theorem Cached.begin (h : Cached log cache) (ho : o.OnBus b) : Cached (log ++ [(.begin o, [])]) (o.begin cache).1 := by
  intro m hm
  rw [callsOf_concat, lastWhere_concat]
  change (Vector.put cache (low3 o.muxAddr) 0xFF).get (low3 m) = _
  rw [Vector.get_put]
  simp only [low3_inj ho.1 hm, MuxCall.concerns, beq_iff_eq]
  split
  · rfl
  · exact h m hm

theorem Cached.write (h : Cached log cache) (ho : o.OnBus b) :
    Cached (log ++ [(.writeRegister o devAddr reg val, ws)]) (o.selectIfNeeded cache).1 := fun m hm => by
  rw [callsOf_concat, lastWhere_concat, selectIfNeeded_get]
  simp only [low3_inj ho.1 hm, MuxCall.concerns, beq_iff_eq]
  split
  · rfl
  · exact h m hm

/-- A select is left out exactly if the latest call on the address is a write with the same channel. -/
theorem Cached.hit_iff (h : Cached log cache) (ho : o.OnBus b) : cache.get (low3 o.muxAddr) = o.channelMask ↔
    (lastWhere (MuxCall.concerns o.muxAddr) (callsOf log)).bind MuxCall.mask? = some o.channelMask := by
  obtain ⟨hm, channel, hnew⟩ := ho
  have hmask : o.channelMask ≠ 0xFF := by rw [hnew]; exact channelMask_ne
  rw [h _ hm]
  cases (lastWhere (MuxCall.concerns o.muxAddr) (callsOf log)).bind MuxCall.mask? with
  | none => exact iff_of_false (fun heq => hmask heq.symm) (fun heq => by cases heq)
  | some mask => exact Option.some_inj.symm

theorem registers_select (ho : o.OnBus b) {regs : Registers} : registers regs (o.selectIfNeeded cache).2 =
    if cache.get (low3 o.muxAddr) = o.channelMask then regs else regs.set o.bus.bus o.muxAddr o.channelMask := by
  unfold TCA9548AInterface.selectIfNeeded
  by_cases hhit : cache.get (low3 o.muxAddr) = o.channelMask
  · rw [if_neg (not_not.mpr hhit), if_pos hhit]
    rfl
  · rw [if_pos hhit, if_neg hhit]
    exact latch_select ho.1

theorem delivers_iff_selected {selects : List BusWrite} :
    Delivers log (.writeRegister o devAddr reg val, selects ++ [o.bus.writeRegister devAddr reg val]) ↔
      o.Selected (registers (fun _ _ => 0) (traffic log ++ selects)) := by
  constructor
  · intro h
    obtain ⟨selects', happ, hsel⟩ := h o devAddr reg val rfl
    obtain rfl : selects = selects' := List.append_cancel_right happ
    exact hsel
  · rintro h o' devAddr' reg' val' heq
    obtain ⟨rfl, rfl, rfl, rfl⟩ := MuxCall.writeRegister.inj heq
    exact ⟨selects, rfl, h⟩

theorem separate_iff {pre : List MuxCall} : MuxCall.Separate pre (.writeRegister o devAddr reg val) ↔
    (lastWhere (MuxCall.concerns o.muxAddr) pre).bind MuxCall.mask? ≠ some o.channelMask ∨
      (lastWhere (MuxCall.writesOn o.bus.bus o.muxAddr) pre).bind MuxCall.mask? = some o.channelMask := by
  constructor
  · exact fun h => h o devAddr reg val rfl
  · rintro h o' devAddr' reg' val' heq
    obtain ⟨rfl, rfl, rfl, rfl⟩ := MuxCall.writeRegister.inj heq
    exact h

/-- What the latest write through a multiplexer selected is the channel of an object. -/
theorem writtenMask_and (hadm : ∀ call ∈ callsOf log, ∃ b, call.Admissible b) (ho : o.OnBus b) :
    ((lastWhere (MuxCall.writesOn bus m) (callsOf log)).bind MuxCall.mask?).getD 0 &&& o.channelMask ≠ 0 ↔
      (lastWhere (MuxCall.writesOn bus m) (callsOf log)).bind MuxCall.mask? = some o.channelMask := by
  have hnone : ((none : Option UInt8).getD 0 &&& o.channelMask ≠ 0) ↔ none = some o.channelMask :=
    iff_of_false (fun h => h UInt8.zero_and) (fun h => by cases h)
  cases hlast : lastWhere (MuxCall.writesOn bus m) (callsOf log) with
  | none => exact hnone
  | some call =>
    cases call with
    | begin => exact hnone
    | writeRegister o' =>
      obtain ⟨b', ho', -⟩ := hadm _ (lastWhere_eq_some hlast).1
      exact (channelMask_and ho ho').trans Option.some_inj.symm

/-- While the control registers hold what was written through each multiplexer, a write is delivered exactly if no
    other bus stands between it and its select. -/
theorem Written.delivers_separate (h : Written log) (hc : Cached log cache)
    (hadm : ∀ call ∈ callsOf log, ∃ b, call.Admissible b) (ho : o.OnBus b) :
    Delivers log (.writeRegister o devAddr reg val, (o.selectIfNeeded cache).2 ++ [o.bus.writeRegister devAddr reg val]) ↔
      MuxCall.Separate (callsOf log) (.writeRegister o devAddr reg val) := by
  rw [delivers_iff_selected, separate_iff, TCA9548AInterface.Selected, registers_append, registers_select ho]
  by_cases hhit : cache.get (low3 o.muxAddr) = o.channelMask
  · have hlast := (hc.hit_iff ho).mp hhit
    rw [if_pos hhit, h _ _ ho.1, writtenMask_and hadm ho, or_iff_right (not_not.mpr hlast)]
  · have hlast := (hc.hit_iff ho).not.mp hhit
    have hown : o.channelMask &&& o.channelMask ≠ 0 := (channelMask_and ho ho).mpr rfl
    rw [if_neg hhit, Registers.set, if_pos ⟨rfl, rfl⟩]
    exact iff_of_true hown (.inl hlast)

/-- A delivered write leaves its channel in the control register, whether its select was sent or not. -/
theorem Written.write (h : Written log) (hadm : ∀ call ∈ callsOf log, ∃ b, call.Admissible b) (ho : o.OnBus b)
    (hdev : isMux devAddr = false)
    (hd : o.Selected (registers (fun _ _ => 0) (traffic log ++ (o.selectIfNeeded cache).2))) :
    Written (log ++ [(.writeRegister o devAddr reg val,
      (o.selectIfNeeded cache).2 ++ [o.bus.writeRegister devAddr reg val])]) := by
  have hregs : registers (fun _ _ => 0) (traffic log ++ (o.selectIfNeeded cache).2) =
      (registers (fun _ _ => 0) (traffic log)).set o.bus.bus o.muxAddr o.channelMask := by
    rw [registers_append, registers_select ho] at hd ⊢
    split
    · rename_i hhit
      rw [if_pos hhit, TCA9548AInterface.Selected, h _ _ ho.1, writtenMask_and hadm ho] at hd
      refine (Registers.set_same ?_).symm
      rw [h _ _ ho.1, hd]
      rfl
    · rfl
  intro bus m hm
  rw [traffic_concat, ← List.append_assoc, registers_append, hregs, registers_device hdev, callsOf_concat, lastWhere_concat,
    Registers.set]
  simp only [MuxCall.writesOn, Bool.and_eq_true, beq_iff_eq, eq_comm (a := o.bus.bus), eq_comm (a := o.muxAddr)]
  split
  · rfl
  · exact h bus m hm

theorem Written.begin (h : Written log) : Written (log ++ [(.begin o, [])]) := fun bus m hm => by
  have hno : ¬MuxCall.writesOn bus m (.begin o) = true := Bool.false_ne_true
  rw [traffic_concat, List.append_nil, callsOf_concat, lastWhere_concat, if_neg hno]
  exact h bus m hm

/-- A run so far: what the cache knows, and, if every write was delivered, what the control registers hold. -/
structure Shared (log : MuxLog) (cache : ChannelCache) : Prop where
  admissible : ∀ call ∈ callsOf log, ∃ b, call.Admissible b
  cached : Cached log cache
  delivers : Preceded Delivers log ↔ Preceded (fun pre e => MuxCall.Separate (callsOf pre) e.1) log
  written : Preceded Delivers log → Written log

theorem shared_init : Shared [] .init where
  admissible _ h := absurd h List.not_mem_nil
  cached _ _ := ChannelCache.get_init
  delivers := iff_of_true preceded_nil preceded_nil
  written _ _ _ _ := rfl

theorem Shared.step (h : Shared log cache) (hcall : ∃ b, call.Admissible b) :
    Shared (log ++ [(call, (call.step cache).2)]) (call.step cache).1 := by
  have hadm : ∀ call' ∈ callsOf (log ++ [(call, (call.step cache).2)]), ∃ b, call'.Admissible b := fun call' hmem => by
    rw [callsOf_concat] at hmem
    rcases List.mem_append.mp hmem with hmem | hmem
    · exact h.admissible call' hmem
    · rw [List.mem_singleton.mp hmem]
      exact hcall
  obtain ⟨b, hcall⟩ := hcall
  cases call with
  | begin o =>
    have hdel : Delivers log (.begin o, []) := fun _ _ _ _ heq => by cases heq
    have hsep : MuxCall.Separate (callsOf log) (.begin o) := fun _ _ _ _ heq => by cases heq
    refine ⟨hadm, h.cached.begin hcall, ?_, fun hpre => (h.written (preceded_concat.mp hpre).1).begin⟩
    rw [preceded_concat, preceded_concat]
    exact and_congr h.delivers (iff_of_true hdel hsep)
  | writeRegister o devAddr reg val =>
    obtain ⟨ho, hdev⟩ := hcall
    refine ⟨hadm, h.cached.write ho, ?_, fun hpre => ?_⟩
    · rw [preceded_concat, preceded_concat, ← h.delivers]
      exact and_congr_right fun hpre => (h.written hpre).delivers_separate h.cached h.admissible ho
    · obtain ⟨hpre, hd⟩ := preceded_concat.mp hpre
      exact (h.written hpre).write h.admissible ho hdev (delivers_iff_selected.mp hd)

end Runs

/-- With objects over any number of buses, and however their calls interleave, every write finds the channel of its
    object selected on its own bus exactly if no select was left out on account of another bus. -/
theorem delivers_iff {calls : List MuxCall} (h : ∀ call ∈ calls, ∃ b, call.Admissible b) :
    ∃ cache log, MuxCall.run .init calls = some (cache, log) ∧
      (Preceded Delivers log ↔ Preceded MuxCall.Separate calls) := by
  obtain ⟨cache, log, hrun, hshared⟩ : ∃ cache log, MuxCall.run .init calls = some (cache, log) ∧ Shared log cache :=
    Machine.run_rule (P := fun _ call => ∃ b, call.Admissible b)
      (fun log cache call hI hcall => ⟨_, _, rfl, hI.step hcall⟩) shared_init (.of_forall fun call hc _ => h call hc)
  refine ⟨cache, log, hrun, ?_⟩
  rw [hshared.delivers, ← Machine.run_inputs hrun]
  exact preceded_map.symm

/-- Two buses, each with a multiplexer at one address and a channel of its own. -/
theorem delivers_iff_two_buses :
    let first : TCA9548AInterface := .new ⟨0, true⟩ 0x70 0
    let second : TCA9548AInterface := .new ⟨1, false⟩ 0x70 3
    let calls : List MuxCall := [.begin first, .begin second, .writeRegister first 0x20 0 0, .writeRegister second 0x20 0 0,
      .writeRegister second 0x20 1 0, .writeRegister first 0x20 1 0]
    ∃ cache log, MuxCall.run .init calls = some (cache, log) ∧ Preceded Delivers log := by
  intro first second calls
  have hadm : ∀ call ∈ calls, ∃ b, call.Admissible b := by
    simp only [calls, List.forall_mem_cons, List.not_mem_nil, false_imp_iff, implies_true, and_true]
    exact ⟨⟨_, rfl, 0, rfl⟩, ⟨_, rfl, 3, rfl⟩, ⟨_, ⟨rfl, 0, rfl⟩, rfl⟩, ⟨_, ⟨rfl, 3, rfl⟩, rfl⟩, ⟨_, ⟨rfl, 3, rfl⟩, rfl⟩,
      ⟨_, ⟨rfl, 0, rfl⟩, rfl⟩⟩
  obtain ⟨cache, log, hrun, hiff⟩ := delivers_iff hadm
  refine ⟨cache, log, hrun, hiff.mpr ?_⟩
  have hcalls : calls = [] ++ [.begin first] ++ [.begin second] ++ [.writeRegister first 0x20 0 0] ++
      [.writeRegister second 0x20 0 0] ++ [.writeRegister second 0x20 1 0] ++ [.writeRegister first 0x20 1 0] := rfl
  have hbegin (pre : List MuxCall) (o : TCA9548AInterface) : MuxCall.Separate pre (.begin o) :=
    fun _ _ _ _ heq => by cases heq
  rw [hcalls]
  simp only [preceded_concat, preceded_nil, true_and, hbegin]
  exact ⟨⟨⟨separate_iff.mpr (by decide), separate_iff.mpr (by decide)⟩, separate_iff.mpr (by decide)⟩,
    separate_iff.mpr (by decide)⟩

/-- Two objects with the same address and channel on two buses, both begun: the first write on the second bus goes
    out without a select, to a multiplexer with no channel selected. -/
theorem second_bus_undelivered :
    let first : TCA9548AInterface := .new ⟨0, true⟩ 0x70 0
    let second : TCA9548AInterface := .new ⟨1, true⟩ 0x70 0
    let calls : List MuxCall :=
      [.begin first, .begin second, .writeRegister first 0x20 0 0, .writeRegister second 0x20 0 0]
    (∀ call ∈ calls, ∃ b, call.Admissible b) ∧ MuxCall.BegunFirst calls ∧
      ∃ cache log, MuxCall.run .init calls = some (cache, log) ∧ ¬Preceded Delivers log := by
  intro first second calls
  have hlog : (MuxCall.run .init calls).map Prod.snd = some [(.begin first, []), (.begin second, []),
      (.writeRegister first 0x20 0 0, [first.bus.writeByte 0x70 1, first.bus.writeRegister 0x20 0 0]),
      (.writeRegister second 0x20 0 0, [second.bus.writeRegister 0x20 0 0])] := by decide
  obtain ⟨⟨cache, log⟩, hrun, rfl⟩ := Option.map_eq_some_iff.mp hlog
  refine ⟨?_, ?_, cache, _, hrun, fun h => ?_⟩
  · simp only [calls, List.forall_mem_cons, List.not_mem_nil, false_imp_iff, implies_true, and_true]
    exact ⟨⟨_, rfl, 0, rfl⟩, ⟨_, rfl, 0, rfl⟩, ⟨_, ⟨rfl, 0, rfl⟩, rfl⟩, ⟨_, ⟨rfl, 0, rfl⟩, rfl⟩⟩
  · have hcalls : calls = [] ++ [.begin first] ++ [.begin second] ++ [.writeRegister first 0x20 0 0] ++
        [.writeRegister second 0x20 0 0] := rfl
    rw [MuxCall.BegunFirst, hcalls]
    simp only [preceded_concat, preceded_nil, true_and]
    refine ⟨⟨⟨fun _ _ _ _ heq => ?_, fun _ _ _ _ heq => ?_⟩, fun _ _ _ _ heq => ?_⟩, fun _ _ _ _ heq => ?_⟩
    · cases heq
    · cases heq
    · obtain ⟨rfl, -⟩ := MuxCall.writeRegister.inj heq
      simp
    · obtain ⟨rfl, -⟩ := MuxCall.writeRegister.inj heq
      simp
  · obtain ⟨selects, happ, hsel⟩ := h [_, _, _] _ [] rfl second 0x20 0 0 rfl
    have happ : [] ++ [second.bus.writeRegister 0x20 0 0] = selects ++ [second.bus.writeRegister 0x20 0 0] := happ
    obtain rfl := List.append_cancel_right happ
    exact hsel (by decide)

end Crosspoint
