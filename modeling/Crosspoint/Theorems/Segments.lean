import Crosspoint.Segments
import Crosspoint.Theorems.TCA9548A
import Mathlib.Data.List.Induction

/-! Who hears a device write. A select turns the other channels of its own multiplexer off, but every other
    multiplexer keeps the channel of the latest write through it. -/

namespace Crosspoint
open Traces

section Segments
variable {b : I2CInterface} {devices : Devices} {regs : Registers} {calls : List MuxCall} {call : MuxCall}
  {log pre : MuxLog}
  {e : MuxCall × List BusWrite} {o : TCA9548AInterface} {m m' channel devAddr reg val : UInt8} {k : Fin 8}

theorem lastWriter_begin : lastWriter (calls ++ [.begin o]) m = lastWriter calls m := by
  rw [lastWriter, List.filterMap_append]
  exact congrArg _ (List.append_nil _)

theorem lastWriter_write : lastWriter (calls ++ [.writeRegister o devAddr reg val]) m =
    if o.muxAddr == m then some o else lastWriter calls m := by
  rw [lastWriter, List.filterMap_append]
  exact lastWhere_concat

/-- Without the cache, a control register holds the mask of the latest write through its multiplexer. -/
theorem registers_plain (h : ∀ call ∈ calls, call.Admissible b) :
    registers regs (calls.flatMap MuxCall.plain) b.bus m =
      ((lastWriter calls m).map TCA9548AInterface.channelMask).getD (regs b.bus m) := by
  induction calls using List.reverseRecOn with
  | nil => rfl
  | append_singleton calls call ih =>
    have ih := ih fun c hc => h c (List.mem_append_left _ hc)
    have hcall := h call (List.mem_append_right _ (List.mem_singleton_self call))
    rw [flatMap_concat, registers_append]
    cases call with
    | begin o =>
      rw [lastWriter_begin]
      exact ih
    | writeRegister o devAddr reg val =>
      obtain ⟨⟨ho, channel, hnew⟩, hdev⟩ := hcall
      have hplain : registers (registers regs (calls.flatMap MuxCall.plain))
          (MuxCall.plain (.writeRegister o devAddr reg val)) =
          (registers regs (calls.flatMap MuxCall.plain)).set b.bus o.muxAddr o.channelMask := by
        have hbus : o.bus = b := by rw [hnew]; rfl
        rw [← hbus, ← latch_select ho]
        exact registers_device hdev
      rw [hplain, lastWriter_write, Registers.set]
      by_cases hom : o.muxAddr = m
      · rw [if_pos ⟨rfl, hom.symm⟩, if_pos (beq_iff_eq.mpr hom)]
        rfl
      · rw [if_neg fun hc => hom hc.2.symm, if_neg fun hc => hom (beq_iff_eq.mp hc)]
        exact ih

theorem lastWriter_onBus (h : ∀ call ∈ calls, call.Admissible b) (ho : lastWriter calls m = some o) :
    o.OnBus b ∧ o.muxAddr = m := by
  have hmem := List.mem_of_find?_eq_some ho
  have haddr := List.find?_some ho
  refine ⟨?_, beq_iff_eq.mp haddr⟩
  obtain ⟨call, hcall, hw⟩ := List.mem_filterMap.mp (List.mem_reverse.mp hmem)
  have hadm := h call hcall
  cases call with
  | begin o' => cases hw
  | writeRegister o' devAddr reg val =>
    obtain rfl := Option.some.inj hw
    exact hadm.1

/-- The channels that are on when a device write goes out: on the multiplexer of its object that object's,
    on any other multiplexer the one of the latest write through it. -/
theorem testBit_forwarded (hpre : ∀ call ∈ pre.map Prod.fst, call.Admissible b) :
    ((Registers.set (registers (fun _ _ => 0) (plainTraffic pre)) b.bus m'
        (TCA9548AInterface.new b m' channel).channelMask) b.bus m).toNat.testBit k = true ↔
      if m = m' then k = low3 channel
      else ∃ channel', lastWriter (pre.map Prod.fst) m = some (.new b m channel') ∧ k = low3 channel' := by
  rw [Registers.set]
  by_cases hmm : m = m'
  · rw [if_pos ⟨rfl, hmm⟩, if_pos hmm]
    exact testBit_channelMask
  · rw [if_neg fun hc => hmm hc.2, if_neg hmm, plainTraffic, registers_plain hpre]
    cases hw : lastWriter (pre.map Prod.fst) m with
    | none => simp
    | some o =>
      obtain ⟨⟨-, channel', hnew⟩, hom⟩ := lastWriter_onBus hpre hw
      rw [hom] at hnew
      rw [hnew]
      constructor
      · exact fun hk => ⟨channel', rfl, testBit_channelMask.mp hk⟩
      · rintro ⟨channel'', heq, hk⟩
        rw [Option.some.inj heq]
        exact testBit_channelMask.mpr hk

/-- One write is heard by its own segment only, exactly if no other multiplexer is in the way. -/
theorem isolated_iff (hpre : ∀ call ∈ pre.map Prod.fst, call.Admissible b) (he : e.1.Admissible b)
    (hf : Forwards b (fun _ _ => 0) pre e) : Isolated b devices pre e ↔ Undisturbed b devices (pre.map Prod.fst) e.1 := by
  -- The control registers that the device write finds.
  have hregs : ∀ o channel devAddr reg val, e.1 = .writeRegister o devAddr reg val → o = .new b o.muxAddr channel →
      ∃ selects, e.2 = selects ++ [b.writeRegister devAddr reg val] ∧ ∀ m (k : Fin 8),
        ((registers (fun _ _ => 0) (traffic pre ++ selects) b.bus m).toNat.testBit k = true ↔
          if m = o.muxAddr then k = low3 channel
          else ∃ channel', lastWriter (pre.map Prod.fst) m = some (.new b m channel') ∧ k = low3 channel') := by
    intro o channel devAddr reg val hcall ho
    obtain ⟨selects, hsel, hset⟩ := hf o devAddr reg val hcall
    refine ⟨selects, hsel, fun m k => ?_⟩
    rw [hset, show o.channelMask = (TCA9548AInterface.new b o.muxAddr channel).channelMask from congrArg _ ho]
    exact testBit_forwarded hpre
  constructor
  · intro hiso o devAddr reg val hcall m channel' hmo hw hdev
    obtain ⟨channel, ho⟩ : ∃ channel, o = .new b o.muxAddr channel := by
      rw [hcall] at he
      exact he.1.2
    obtain ⟨selects, hsel, hbits⟩ := hregs o channel devAddr reg val hcall ho
    obtain ⟨selects', hsel', hheard⟩ := hiso o channel devAddr reg val hcall ho
    obtain rfl := List.append_cancel_right (hsel.symm.trans hsel')
    have hm : isMux m = true := (lastWriter_onBus hpre hw).1.1
    have hbit := (hbits m (low3 channel')).mpr (by rw [if_neg hmo]; exact ⟨channel', hw, rfl⟩)
    exact hmo ((hheard m (low3 channel')).mp ⟨hm, hdev, hbit⟩).1
  · intro hun o channel devAddr reg val hcall ho
    obtain ⟨selects, hsel, hbits⟩ := hregs o channel devAddr reg val hcall ho
    refine ⟨selects, hsel, fun m k => ⟨fun ⟨hm, hdev, hbit⟩ => ?_, ?_⟩⟩
    · have hon := (hbits m k).mp hbit
      split at hon
      · rename_i hmo
        exact ⟨hmo, hon, hdev⟩
      · rename_i hmo
        obtain ⟨channel', hw, rfl⟩ := hon
        exact absurd hdev (hun o devAddr reg val hcall m channel' hmo hw)
    · rintro ⟨rfl, rfl, hdev⟩
      have hmux : isMux o.muxAddr = true := by
        rw [hcall] at he
        exact he.1.1
      exact ⟨hmux, hdev, (hbits _ _).mpr (by rw [if_pos rfl])⟩

end Segments

/-- In a run from reset every write is heard on the segment of its object alone if and only if no write
    goes out while another multiplexer was left on a channel that has a device of the same address. -/
theorem run_isolated (b : I2CInterface) (devices : Devices) (calls : List MuxCall) (h : ∀ call ∈ calls, call.Admissible b) :
    ∃ cache log, MuxCall.run .init calls = some (cache, log) ∧
      (Preceded (Isolated b devices) log ↔ Preceded (Undisturbed b devices) calls) := by
  obtain ⟨cache, log, hr, ht, -⟩ := run_transparent (fun _ _ => 0) h
  refine ⟨cache, log, hr, ?_⟩
  have hcalls : log.map Prod.fst = calls := Machine.run_inputs hr
  have hiff : ∀ pre e post, log = pre ++ e :: post →
      (Isolated b devices pre e ↔ Undisturbed b devices (pre.map Prod.fst) e.1) := by
    intro pre e post hlog
    have hadm : ∀ call ∈ pre.map Prod.fst ++ e.1 :: post.map Prod.fst, call.Admissible b := by
      rw [← List.map_cons, ← List.map_append, ← hlog, hcalls]
      exact h
    exact isolated_iff (fun call hc => hadm call (List.mem_append_left _ hc)) (hadm _ (by simp))
      (ht.forwards pre e post hlog)
  rw [← hcalls, preceded_map]
  exact ⟨fun hp pre e post hlog => (hiff pre e post hlog).mp (hp pre e post hlog),
    fun hp pre e post hlog => (hiff pre e post hlog).mpr (hp pre e post hlog)⟩

/-- Two expanders of one address on channel 0 of two multiplexers: the write for the second is heard by both,
    since nothing turned channel 0 of the first multiplexer off. -/
theorem second_mux_disturbs_first :
    let b : I2CInterface := ⟨0, true⟩
    let devices : Devices := fun _ k a => k = 0 ∧ a = 0x20
    let calls : List MuxCall := [.writeRegister (.new b 0x70 0) 0x20 0x14 0, .writeRegister (.new b 0x71 0) 0x20 0x14 1]
    (∀ call ∈ calls, call.Admissible b) ∧
      ∃ cache log, MuxCall.run .init calls = some (cache, log) ∧ ¬Preceded (Isolated b devices) log := by
  intro b devices calls
  let log : MuxLog := [(calls[0], [b.writeByte 0x70 1, b.writeRegister 0x20 0x14 0]),
    (calls[1], [b.writeByte 0x71 1, b.writeRegister 0x20 0x14 1])]
  refine ⟨?_, ((ChannelCache.init).put 0 1).put 1 1, log, by decide, fun h => ?_⟩
  · simp only [calls, List.forall_mem_cons, List.not_mem_nil, false_imp_iff, implies_true, and_true]
    exact ⟨⟨⟨rfl, 0, rfl⟩, rfl⟩, ⟨rfl, 0, rfl⟩, rfl⟩
  · obtain ⟨selects, hsel, hheard⟩ := h [log[0]] log[1] [] rfl (.new b 0x71 0) 0 0x20 0x14 1 rfl rfl
    obtain rfl : [b.writeByte 0x71 1] = selects :=
      List.append_cancel_right (show [b.writeByte 0x71 1] ++ [b.writeRegister 0x20 0x14 1] = _ from hsel)
    have hfirst := (hheard 0x70 0).mp ⟨rfl, ⟨rfl, rfl⟩, by decide⟩
    exact absurd hfirst.1 (by decide)

/-- Two channels of one multiplexer may have devices of the same address, and another multiplexer devices of another one. -/
theorem run_isolated_two_muxes :
    let b : I2CInterface := ⟨0, true⟩
    let devices : Devices := fun m _ a => m = 0x70 ∧ a = 0x20 ∨ m = 0x71 ∧ a = 0x21
    let calls : List MuxCall := [.writeRegister (.new b 0x70 0) 0x20 0x14 0, .writeRegister (.new b 0x71 0) 0x21 0x14 1,
      .writeRegister (.new b 0x70 1) 0x20 0x14 2, .writeRegister (.new b 0x71 0) 0x21 0x14 3]
    ∃ cache log, MuxCall.run .init calls = some (cache, log) ∧ lastWriter calls 0x70 = some (.new b 0x70 1) ∧
      lastWriter calls 0x71 = some (.new b 0x71 0) ∧ Preceded (Isolated b devices) log := by
  intro b devices calls
  obtain ⟨cache, log, hr, hiff⟩ := run_isolated b devices calls (by
    simp only [calls, List.forall_mem_cons, List.not_mem_nil, false_imp_iff, implies_true, and_true]
    exact ⟨⟨⟨rfl, 0, rfl⟩, rfl⟩, ⟨⟨rfl, 0, rfl⟩, rfl⟩, ⟨⟨rfl, 1, rfl⟩, rfl⟩, ⟨rfl, 0, rfl⟩, rfl⟩)
  refine ⟨cache, log, hr, by decide, by decide,
    hiff.mpr fun pre call post hsplit o devAddr reg val hcall m channel hm _ hdev => ?_⟩
  -- The multiplexer that has a device of the address is the one that the write goes through.
  have hthrough : ∀ call ∈ calls, ∀ o devAddr reg val, call = .writeRegister o devAddr reg val →
      o.muxAddr = 0x70 ∧ devAddr = 0x20 ∨ o.muxAddr = 0x71 ∧ devAddr = 0x21 := by
    simp only [calls, List.forall_mem_cons, List.not_mem_nil, false_imp_iff, implies_true, and_true,
      MuxCall.writeRegister.injEq]
    refine ⟨?_, ?_, ?_, ?_⟩ <;> rintro o devAddr reg val ⟨rfl, rfl, -⟩
    · exact .inl ⟨rfl, rfl⟩
    · exact .inr ⟨rfl, rfl⟩
    · exact .inl ⟨rfl, rfl⟩
    · exact .inr ⟨rfl, rfl⟩
  rcases hthrough call (by simp [hsplit]) o devAddr reg val hcall with ⟨ho, rfl⟩ | ⟨ho, rfl⟩ <;>
    rcases hdev with ⟨rfl, haddr⟩ | ⟨rfl, haddr⟩
  · exact hm ho.symm
  · exact absurd haddr (by decide)
  · exact absurd haddr (by decide)
  · exact hm ho.symm

end Crosspoint
