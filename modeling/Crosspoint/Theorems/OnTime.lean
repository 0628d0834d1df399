import Crosspoint.Theorems.Coils
import Crosspoint.Theorems.Expiry

/-! How long a coil stays on. An `update` releases every pulse that is due, provided that the 32-bit clock has not gone
    once around since the pulse was started; an `update` that comes in time sees to it that it has not. -/

namespace Crosspoint
open PulseTable Traces

variable {pdur : UInt16} {d : DriverRef} {log : List (TimedOp × TimedReply)} {s : TimedXPoint} {i : TimedOp}
  {start gap : Nat} {e : PulseEvent} {ret : Option Bool} {cs ds : List DriverCall}

/-! ### The last `update` -/

theorem timeline_concat {x : TimedOp × TimedReply} : timeline (log ++ [x]) = timeline log ++ [(x.1.op, x.2.began)] :=
  List.map_append

theorem lastUpdate_other {x : TimedOp × TimedReply} (h : x.1.op ≠ .update) :
    lastUpdate start (timeline (log ++ [x])) = lastUpdate start (timeline log) := by
  rw [timeline_concat, lastUpdate, lastWhere_concat, if_neg (by simpa using h), lastUpdate]

theorem lastUpdate_update {x : TimedOp × TimedReply} (h : x.1.op = .update) :
    lastUpdate start (timeline (log ++ [x])) = x.2.began := by
  rw [timeline_concat, lastUpdate, lastWhere_concat, if_pos (by simpa using h)]
  rfl

theorem TimedOp.timed_calls : (i.timed start cs).map TimedCall.call = cs :=
  List.ext_getElem (by simp [timed]) fun k _ _ => by simp [timed]

/-! ### Pulses that an `update` will find in time -/

/-- The clock reading of the pulse was at most `pdur` ms old at the last `update`, and no `update` since the operation that
    started the pulse found it due. -/
structure Recent (pdur : UInt16) (start : Nat) (log : List (TimedOp × TimedReply)) (now : Nat) (e : PulseEvent)
    (B C : Nat) : Prop where
  committed : driven e.r e.c (timedCalls log) = .committed C
  read : e.t0 = UInt32.ofNat B
  read_le : B ≤ C
  le_now : C ≤ now
  last : lastUpdate start (timeline log) ≤ B + pdur.toNat
  young : UpdatedBefore e.r e.c (B + pdur.toNat) log

theorem drives_of_mem {T : Nat} {r c : UInt8} {on : Bool} (h : .setNodeHardware r c on ∈ cs) :
    drives r c (i, ⟨ret, T, i.timed T cs⟩) = true := by
  obtain ⟨t, ht, hcall⟩ : ∃ t ∈ i.timed T cs, t.call = .setNodeHardware r c on := TimedOp.exists_timed h
  exact List.any_eq_true.mpr ⟨t, ht, sets_iff.mpr ⟨on, hcall⟩⟩

theorem sets_unnamed {T : Nat} {r c : UInt8} (h : ∀ call ∈ cs, call.names r c = false) :
    ∀ t ∈ i.timed T cs, t.sets r c = false := fun t ht => by
  rw [TimedCall.sets, h _ (TimedOp.mem_timed ht).1]
  rfl

/-- A pulse that an operation started after the last `update`. -/
theorem Recent.started {T : Nat} {on : Bool} (h : Tracked (log ++ [(i, ⟨ret, T, i.timed T cs⟩)]) (i.time T cs.length) e)
    (hop : i.op ≠ .update) (hT : lastUpdate start (timeline log) ≤ T) (hcs : cs = ds ++ [.commitPhysicalUpdates])
    (hds : ∀ call ∈ ds, call ≠ .commitPhysicalUpdates) (hmem : .setNodeHardware e.r e.c on ∈ ds)
    (hread : e.t0 = i.clock T cs.length ∨ e.t0 = i.clock T 0) :
    ∃ B C, Recent pdur start (log ++ [(i, ⟨ret, T, i.timed T cs⟩)]) (i.time T cs.length) e B C := by
  obtain ⟨C, hC, hle, -⟩ := h.committed
  obtain ⟨t, ht, hcall⟩ : ∃ t ∈ i.timed T ds, t.call = .setNodeHardware e.r e.c on := TimedOp.exists_timed hmem
  have hend : C = i.time T cs.length := by
    have htimed : i.timed T cs =
        i.timed T ds ++ [⟨.commitPhysicalUpdates, i.time T ds.length, i.time T (ds.length + 1)⟩] := by
      rw [hcs, TimedOp.timed_concat]
    have hdriven : driven e.r e.c (timedCalls log ++ (i.timed T ds ++
        [⟨.commitPhysicalUpdates, i.time T ds.length, i.time T (ds.length + 1)⟩])) =
          .committed (i.time T (ds.length + 1)) :=
      driven_committed (fun t ht => hds _ (TimedOp.mem_timed ht).1) ⟨t, ht, sets_iff.mpr ⟨on, hcall⟩⟩ rfl
    rw [timedCalls_concat] at hC
    change driven e.r e.c (timedCalls log ++ i.timed T cs) = _ at hC
    rw [htimed] at hC
    rw [hcs, List.length_append, List.length_singleton]
    exact Driven.committed.inj (hC.symm.trans hdriven)
  have hlast : lastUpdate start (timeline (log ++ [(i, ⟨ret, T, i.timed T cs⟩)])) ≤ T := by
    rw [lastUpdate_other hop]
    exact hT
  have hTC : T ≤ C := hend ▸ TimedOp.le_time
  have hyoung (limit : Nat) : UpdatedBefore e.r e.c limit (log ++ [(i, ⟨ret, T, i.timed T cs⟩)]) :=
    since_concat.mpr (.inl (drives_of_mem (hcs ▸ List.mem_append_left _ hmem)))
  rcases hread with ht0 | ht0
  · exact ⟨C, C, hC, hend ▸ ht0, le_refl C, hle, hlast.trans (hTC.trans (Nat.le_add_right _ _)), hyoung _⟩
  · exact ⟨T, C, hC, ht0, hTC, hle, hlast.trans (Nat.le_add_right _ _), hyoung _⟩

/-- A pulse that an operation leaves in flight. -/
theorem Recent.kept {B C T : Nat} (h : Recent pdur start log s.now e B C) (hT : s.now ≤ T)
    (hcs : ∀ call ∈ cs, call.names e.r e.c = false)
    (hdue : i.op = .update → due (UInt32.ofNat T) pdur e = false ∧ T ≤ lastUpdate start (timeline log) + gap)
    (hgap : gap + pdur.toNat < 4294967296) :
    Recent pdur start (log ++ [(i, ⟨ret, T, i.timed T cs⟩)]) (i.time T cs.length) e B C := by
  have hsets := sets_unnamed (i := i) (T := T) hcs
  have hyoung : i.op = .update → T < B + pdur.toNat := fun hop => by
    obtain ⟨hdue, hprompt⟩ := hdue hop
    have hBT : B ≤ T := h.read_le.trans (h.le_now.trans hT)
    have hlast := h.last
    have hage : due (UInt32.ofNat T) pdur e = true ↔ pdur.toNat ≤ (T - B) % 4294967296 := due_iff hBT h.read
    rw [hdue, Nat.mod_eq_of_lt (by omega)] at hage
    have hnot : ¬pdur.toNat ≤ T - B := fun hold => Bool.false_ne_true (hage.mpr hold)
    omega
  refine ⟨?_, h.read, h.read_le, (h.le_now.trans hT).trans TimedOp.le_time, ?_,
    since_concat.mpr (.inr ⟨h.young, ?_, hyoung⟩)⟩
  · rw [timedCalls_concat]
    exact driven_kept h.committed hsets
  · by_cases hop : i.op = .update
    · rw [lastUpdate_update hop]
      exact (hyoung hop).le
    · rw [lastUpdate_other hop]
      exact h.last
  · exact List.any_eq_false.mpr fun t ht => by
      rw [hsets t ht]
      exact Bool.false_ne_true

theorem TableXPoint.update_sets_nothing {a : TableXPoint} {millis : Clock} {r c : UInt8} {on : Bool}
    (ht : a.type = .latchingDualCoil)
    (hdrv : a.drv.isSome = true) : .setNodeHardware r c on ∉ (a.step (.update, millis)).2.calls := by
  change _ ∉ (a.update millis).2.calls
  rw [update_calls ht hdrv]
  intro hmem
  rcases List.mem_append.mp hmem with hmem | hmem
  · obtain ⟨n, -, hn⟩ := List.mem_map.mp hmem
    cases hn
  · split at hmem
    · cases hmem
    · cases List.mem_singleton.mp hmem

/-- A slot that an `update` leaves in use was not due. -/
theorem Pulsing.not_due (h : Pulsing d pdur log s) (hop : i.op = .update) {s' : TimedXPoint} {rep : TimedReply}
    (hstep : s.step i = some (s', rep)) {j : Fin MAX_PULSES} (hon : (s'.matrix.pulses.get j).on = true) :
    due (UInt32.ofNat (s.now + i.wait)) pdur (s.matrix.pulses.get j) = false := by
  obtain ⟨pulses, hupdate, hget⟩ := h.update hop
  obtain ⟨rfl, -⟩ := Prod.mk.inj (Option.some.inj (hupdate.symm.trans hstep))
  have hexpired : pulses.get j = expired (UInt32.ofNat (s.now + i.wait)) pdur (s.matrix.pulses.get j) := hget j
  have hon : (pulses.get j).on = true := hon
  exact (expired_on.mp (hexpired ▸ hon)).2

/-- The state after the operations of `log`, if every `update` of it came in time. -/
structure Timely (d : DriverRef) (pdur : UInt16) (gap start : Nat) (log : List (TimedOp × TimedReply)) (s : TimedXPoint) :
    Prop where
  pulsing : Pulsing d pdur log s
  tracks : s.matrix.tables.Tracks ((timedCalls log).map TimedCall.call)
  updated : lastUpdate start (timeline log) ≤ s.now
  recent : Preceded (Prompt gap start) (timeline log) →
    ∀ j : Fin MAX_PULSES, (s.matrix.pulses.get j).on = true → ∃ B C, Recent pdur start log s.now (s.matrix.pulses.get j) B C

theorem Timely.step (hgap : gap + pdur.toNat < 4294967296) (h : Timely d pdur gap start log s) (hi : i.op.KeepsDriver d) :
    ∃ s' rep, s.step i = some (s', rep) ∧ Timely d pdur gap start (log ++ [(i, rep)]) s' := by
  obtain ⟨s', rep, hstep, hpulsing⟩ := h.pulsing.step hi
  obtain ⟨y, hstep', hwf, ht⟩ := TimedXPoint.step_tables h.pulsing.wellFormed i
  obtain ⟨rfl, rfl⟩ := Prod.mk.inj (Option.some.inj (hstep'.symm.trans hstep))
  have hdrv : s.matrix.tables.drv.isSome = true := by
    change s.matrix.drv.isSome = true
    rw [h.pulsing.drv]
    rfl
  have hT : s.now ≤ s.now + i.wait := Nat.le_add_right _ _
  refine ⟨_, _, hstep, hpulsing, ?_, ?_, fun hprompt j hon => ?_⟩
  · rw [timedCalls_concat, List.map_append, TimedOp.timed_calls, ← ht]
    exact TableXPoint.step_tracks h.pulsing.distinct hdrv h.tracks _
  · by_cases hop : i.op = .update
    · rw [lastUpdate_update hop]
      exact TimedOp.le_time
    · rw [lastUpdate_other hop]
      exact (h.updated.trans hT).trans TimedOp.le_time
  · obtain ⟨hbefore, hlast⟩ := preceded_concat.mp (timeline_concat ▸ hprompt)
    have hp : (s.matrix.tables.step (i.op, i.clock (s.now + i.wait))).1.pulses = y.pulses := congrArg TableXPoint.pulses ht
    have hbusy : ((s.matrix.tables.step (i.op, i.clock (s.now + i.wait))).1.pulses.get j).on = true := hp ▸ hon
    have horigin := TableXPoint.step_origin h.pulsing.type hdrv h.pulsing.distinct (XPoint.framed_tables _) hbusy
    rw [hp] at horigin
    -- An operation that sets a node is no `update`.
    have hsets : ∀ r c on, .setNodeHardware r c on ∈ (s.matrix.tables.step (i.op, i.clock (s.now + i.wait))).2.calls →
        i.op ≠ .update := fun r c on hmem hop => by
      rw [hop] at hmem
      exact TableXPoint.update_sets_nothing h.pulsing.type hdrv hmem
    cases horigin with
    | kept hsame hcalls =>
      have hsame : s.matrix.pulses.get j = y.pulses.get j := hsame
      obtain ⟨B, C, hrecent⟩ := h.recent hbefore j (by rw [hsame]; exact hon)
      rw [hsame] at hrecent
      exact ⟨B, C, hrecent.kept hT hcalls (fun hop => ⟨hsame ▸ h.pulsing.not_due hop hstep hon, hlast hop⟩) hgap⟩
    | fresh hop ht0 on hcalls =>
      have hcalls : _ = [DriverCall.setNodeHardware _ _ on] ++ [.commitPhysicalUpdates] := hcalls
      refine Recent.started (hpulsing.tracked j hon) (hsets _ _ on (by rw [hcalls]; exact List.mem_cons_self))
        (h.updated.trans hT) hcalls (fun call hcall => ?_) (List.mem_singleton_self _) (.inl ht0)
      obtain rfl := List.mem_singleton.mp hcall
      exact fun h => by cases h
    | swept hop ht0 ds hcalls hds hmem =>
      refine Recent.started (hpulsing.tracked j hon) (hsets _ _ false (hcalls ▸ List.mem_append_left _ hmem))
        (h.updated.trans hT) hcalls (fun call hcall => ?_) hmem (.inr ht0)
      obtain ⟨r, c, rfl⟩ := hds call hcall
      exact fun h => by cases h

/-- In every timed run whose updates begin at most `gap` ms apart: every `update` since the operation that last drove a coil
    that is on at the end began less than `pdur` ms after the commit of that coil returned, or before it did. -/
theorem XPoint.run_on_time {rows cols : UInt8} {x : XPoint} (h : XPoint.Attached rows cols .latchingDualCoil pdur d x)
    (now : Nat) {ops : List TimedOp} (hops : ∀ i ∈ ops, i.op.KeepsDriver d) (hgap : gap + pdur.toNat < 4294967296) :
    ∃ s log, TimedXPoint.run ⟨x, now⟩ ops = some (s, log) ∧ (Preceded (Prompt gap now) (timeline log) →
      ∀ r c, energised ((timedCalls log).map TimedCall.call) r c = true →
        ∃ C, driven r c (timedCalls log) = .committed C ∧ C ≤ s.now ∧ UpdatedBefore r c (C + pdur.toNat) log) := by
  obtain ⟨-, -, valid, ht⟩ := h.spec
  have hstart : Timely d pdur gap now [] ⟨x, now⟩ := by
    refine ⟨h.pulsing now, ?_, le_refl now, fun _ j hon => ?_⟩
    · change x.tables.Tracks []
      rw [ht]
      exact (TableXPoint.blank_init.setDriver _).tracks rfl
    · have hp : x.pulses = PulseTable.init := congrArg TableXPoint.pulses ht
      change (x.pulses.get j).on = true at hon
      rw [hp, idle_init j] at hon
      cases hon
  obtain ⟨s, log, hrun, hs⟩ := Machine.run_rule (I := Timely d pdur gap now) (P := fun _ i => i.op.KeepsDriver d)
    (fun _ _ _ hs hi => hs.step hgap hi) hstart (Machine.Along.of_forall fun i hi _ => hops i hi)
  refine ⟨s, log, hrun, fun hprompt r c hon => ?_⟩
  obtain ⟨j, hj⟩ := pending_iff.mp ((hs.tracks.slots r c).mpr hon)
  obtain ⟨hbusy, rfl, rfl⟩ := names_iff.mp hj
  obtain ⟨B, C, hrecent⟩ := hs.recent hprompt j hbusy
  have hlimit : B + pdur.toNat ≤ C + pdur.toNat := Nat.add_le_add_right hrecent.read_le _
  exact ⟨C, hrecent.committed, hrecent.le_now, hrecent.young.imp fun _ hu => ⟨hu.1, fun hop => (hu.2 hop).trans_le hlimit⟩⟩

/-- A slow driver and a clock that rolls over while a coil is on: the last `update` comes 3 ms after its commit. -/
theorem XPoint.run_on_time_rollover : ∃ x s log, XPoint.Attached 2 2 .latchingDualCoil 5 0 x ∧
    TimedXPoint.run ⟨x, 4294967264⟩ [⟨.connect 0 1, 3, fun _ => 2⟩, ⟨.update, 10, fun _ => 1⟩, ⟨.clearAll, 0, fun _ => 1⟩,
      ⟨.update, 4, fun _ => 1⟩, ⟨.connect 1 0, 1, fun _ => 1⟩, ⟨.update, 3, fun _ => 1⟩] = some (s, log) ∧
      energised ((timedCalls log).map TimedCall.call) 1 0 = true ∧ lastUpdate 4294967264 (timeline log) = 4294967297 ∧
      ∀ r c, energised ((timedCalls log).map TimedCall.call) r c = true →
        ∃ C, driven r c (timedCalls log) = .committed C ∧ C ≤ s.now ∧ UpdatedBefore r c (C + 5) log := by
  let ops : List TimedOp := [⟨.connect 0 1, 3, fun _ => 2⟩, ⟨.update, 10, fun _ => 1⟩, ⟨.clearAll, 0, fun _ => 1⟩,
    ⟨.update, 4, fun _ => 1⟩, ⟨.connect 1 0, 1, fun _ => 1⟩, ⟨.update, 3, fun _ => 1⟩]
  let line : List (Op × Nat) := [(.connect 0 1, 4294967267), (.update, 4294967281), (.clearAll, 4294967283),
    (.update, 4294967289), (.connect 1 0, 4294967292), (.update, 4294967297)]
  have hends :
      ((XPoint.heap 2 2 .latchingDualCoil 5).bind fun y => (TimedXPoint.run ⟨(y.setDriver (some 0)).1, 4294967264⟩ ops).map
      fun t => (energised ((timedCalls t.2).map TimedCall.call) 1 0, timeline t.2)) = some (true, line) := by
    decide +kernel
  obtain ⟨y, s, log, hy, hrun, hends⟩ := Machine.run_of_bind hends
  obtain ⟨hon, hline⟩ := Prod.mk.inj hends
  have hx : XPoint.Attached 2 2 .latchingDualCoil 5 0 (y.setDriver (some 0)).1 := ⟨y, .heap hy, rfl⟩
  obtain ⟨s', log', hrun', htime⟩ := XPoint.run_on_time hx 4294967264
    (show ∀ i ∈ ops, i.op.KeepsDriver 0 by simp [ops, Op.KeepsDriver]) (show 20 + (5 : UInt16).toNat < 4294967296 by decide)
  obtain ⟨rfl, rfl⟩ := Prod.mk.inj (Option.some.inj (hrun'.symm.trans hrun))
  refine ⟨_, s', log', hx, hrun, hon, by rw [hline]; rfl, htime ?_⟩
  have hline : timeline log' = (((((([] ++ [(.connect 0 1, 4294967267)]) ++ [(.update, 4294967281)]) ++
      [(.clearAll, 4294967283)]) ++ [(.update, 4294967289)]) ++ [(.connect 1 0, 4294967292)]) ++
      [(.update, 4294967297)]) := hline
  rw [hline]
  simp only [preceded_concat, preceded_nil, true_and, Prompt]
  decide

end Crosspoint
