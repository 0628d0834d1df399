import Crosspoint.Theorems.Timed

/-! Pulses in real time: how the clock reading in a slot relates to the time at which the driver energised the
    coil, over every run; and from it, when `update` releases a coil. -/

namespace Crosspoint
open PulseTable Traces

/-! ### The calls of one operation -/

namespace TimedOp
variable {i : TimedOp} {start k m : Nat} {cs ds : List DriverCall} {t : TimedCall} {r c : UInt8}

theorem le_time : start ≤ i.time start k := Nat.le_add_right _ _

theorem time_still (h : ∀ k, i.takes k = 0) : i.time start k = start := by
  have hsum : ((List.range k).map i.takes).sum = 0 := List.sum_eq_zero fun n hn => by
    obtain ⟨k, -, rfl⟩ := List.mem_map.mp hn
    exact h k
  rw [time, hsum, Nat.add_zero]

theorem mem_timed (h : t ∈ i.timed start cs) : t.call ∈ cs ∧ ∃ k, t.begins = i.time start k := by
  obtain ⟨k, hk, rfl⟩ := List.mem_mapIdx.mp h
  exact ⟨List.getElem_mem hk, k, rfl⟩

theorem exists_timed {call : DriverCall} (h : call ∈ cs) : ∃ t ∈ i.timed start cs, t.call = call := by
  obtain ⟨k, hk, rfl⟩ := List.mem_iff_getElem.mp h
  exact ⟨_, List.mem_mapIdx.mpr ⟨k, hk, rfl⟩, rfl⟩

theorem timed_concat {call : DriverCall} : i.timed start (cs ++ [call]) =
    i.timed start cs ++ [⟨call, i.time start cs.length, i.time start (cs.length + 1)⟩] := List.mapIdx_concat

end TimedOp

/-! ### Reading the history -/

section History
variable {r c : UInt8} {l m : List TimedCall} {t : TimedCall} {d : Driven} {C : Nat} {log : List (TimedOp × TimedReply)}
  {e : TimedOp × TimedReply}

theorem sets_iff : t.sets r c = true ↔ ∃ on, t.call = .setNodeHardware r c on := by
  cases h : t.call <;> simp [TimedCall.sets, h, DriverCall.names, DriverCall.energises]

theorem timedCalls_concat : timedCalls (log ++ [e]) = timedCalls log ++ e.2.calls := flatMap_concat

/-- Calls that do not drive the node leave its last commit as it is. -/
theorem driven_kept (h : driven r c l = .committed C) (hm : ∀ t ∈ m, t.sets r c = false) :
    driven r c (l ++ m) = .committed C := by
  rw [driven, List.foldl_append]
  refine List.foldlRecOn (motive := fun d => d = Driven.committed C) m _ h fun d hd t ht => ?_
  rw [hd, Driven.take, if_neg (Bool.eq_false_iff.mp (hm t ht)), if_neg fun h => by cases h.2]

theorem foldl_staged (hm : ∀ t ∈ m, t.call ≠ .commitPhysicalUpdates)
    (h : d = .staged ∨ ∃ t ∈ m, t.sets r c = true) : m.foldl (Driven.take r c) d = .staged := by
  induction m generalizing d with
  | nil => exact h.resolve_right fun ⟨_, ht, _⟩ => absurd ht List.not_mem_nil
  | cons t m ih =>
    refine ih (fun u hu => hm u (List.mem_cons_of_mem t hu)) ?_
    cases hset : t.sets r c with
    | true => exact .inl (if_pos hset)
    | false =>
      have htake : Driven.take r c d t = d := by
        rw [Driven.take, if_neg (Bool.eq_false_iff.mp hset), if_neg fun h => hm t List.mem_cons_self h.1]
      rw [htake]
      refine h.imp id ?_
      rintro ⟨u, hu, hus⟩
      rcases List.mem_cons.mp hu with rfl | hu
      · cases hset.symm.trans hus
      · exact ⟨u, hu, hus⟩

/-- A node that is driven and then committed. -/
theorem driven_committed (hm : ∀ t ∈ m, t.call ≠ .commitPhysicalUpdates) (h : ∃ t ∈ m, t.sets r c = true)
    (ht : t.call = .commitPhysicalUpdates) : driven r c (l ++ (m ++ [t])) = .committed t.ends := by
  have hset : t.sets r c = false := by rw [TimedCall.sets, ht]; rfl
  rw [driven, List.foldl_append, List.foldl_append, foldl_staged hm (.inr h), List.foldl_cons, List.foldl_nil, Driven.take,
    if_neg (Bool.eq_false_iff.mp hset), if_pos ⟨ht, rfl⟩]

theorem energisedAt_kept (hm : ∀ t ∈ m, t.sets r c = false) : energisedAt r c (l ++ m) = energisedAt r c l := by
  rw [energisedAt, lastWhere_append, lastWhere_eq_none.mpr hm]
  rfl

theorem energisedAt_set (h : ∃ t ∈ m, t.sets r c = true) : ∃ t ∈ m, energisedAt r c (l ++ m) = some t.begins := by
  obtain ⟨t, ht, hset⟩ := h
  obtain ⟨u, hu, hmem, -⟩ := exists_lastWhere ht hset
  exact ⟨u, hmem, by rw [energisedAt, lastWhere_append, hu]; rfl⟩

theorem sweptAt_kept (h : ∀ t ∈ e.2.calls, t.sets r c = false) : sweptAt r c (log ++ [e]) = sweptAt r c log := by
  have hdrives : drives r c e = false := List.any_eq_false.mpr fun t ht => by
    rw [h t ht]
    exact Bool.false_ne_true
  rw [sweptAt, lastWhere_concat, if_neg (Bool.eq_false_iff.mp hdrives)]
  rfl

theorem sweptAt_clearAll (h : ∃ t ∈ e.2.calls, t.sets r c = true) (hop : e.1.op = .clearAll) :
    sweptAt r c (log ++ [e]) = some e.2.began := by
  have hdrives : drives r c e = true := List.any_eq_true.mpr h
  rw [sweptAt, lastWhere_concat, if_pos hdrives, Option.bind_some, if_pos hop]

end History

/-! ### Every run -/

/-- What the clock reading of a pulse says about the calls of the run that led to it: it shows the return of the
    commit, or, if `clearAll` drove the node last, the start of `clearAll`. When the driver calls take no
    time, it shows the time at which the coil was energised. -/
structure Tracked (log : List (TimedOp × TimedReply)) (now : Nat) (e : PulseEvent) : Prop where
  committed : ∃ C, driven e.r e.c (timedCalls log) = .committed C ∧ C ≤ now ∧
    (e.t0 = UInt32.ofNat C ∨ ∃ S, sweptAt e.r e.c log = some S ∧ S ≤ C ∧ e.t0 = UInt32.ofNat S)
  still : (∀ x ∈ log, ∀ k, x.1.takes k = 0) →
    ∃ B, energisedAt e.r e.c (timedCalls log) = some B ∧ B ≤ now ∧ e.t0 = UInt32.ofNat B

namespace Tracked
variable {log : List (TimedOp × TimedReply)} {now start : Nat} {e : PulseEvent} {i : TimedOp} {ret : Option Bool}
  {ds cs : List DriverCall}

theorem kept (h : Tracked log now e) (hnow : now ≤ start) (hcs : ∀ call ∈ cs, call.names e.r e.c = false) :
    Tracked (log ++ [(i, ⟨ret, start, i.timed start cs⟩)]) (i.time start cs.length) e := by
  have hsets : ∀ t ∈ i.timed start cs, t.sets e.r e.c = false := fun t ht => by
    rw [TimedCall.sets, hcs _ (TimedOp.mem_timed ht).1]
    rfl
  have hend : now ≤ i.time start cs.length := hnow.trans TimedOp.le_time
  constructor
  · obtain ⟨C, hC, hle, ht0⟩ := h.committed
    refine ⟨C, ?_, hle.trans hend, ?_⟩
    · rw [timedCalls_concat]
      exact driven_kept hC hsets
    · rwa [sweptAt_kept hsets]
  · intro hstill
    obtain ⟨B, hB, hle, ht0⟩ := h.still fun x hx => hstill x (List.mem_append_left _ hx)
    refine ⟨B, ?_, hle.trans hend, ht0⟩
    rw [timedCalls_concat, energisedAt_kept hsets, hB]

/-- A pulse that the operation started. -/
theorem started {on : Bool} (hcs : cs = ds ++ [.commitPhysicalUpdates]) (hds : ∀ call ∈ ds, call ≠ .commitPhysicalUpdates)
    (hmem : .setNodeHardware e.r e.c on ∈ ds)
    (ht0 : e.t0 = i.clock start cs.length ∨ i.op = .clearAll ∧ e.t0 = i.clock start 0) :
    Tracked (log ++ [(i, ⟨ret, start, i.timed start cs⟩)]) (i.time start cs.length) e := by
  obtain ⟨t, ht, hcall⟩ : ∃ t ∈ i.timed start ds, t.call = .setNodeHardware e.r e.c on := TimedOp.exists_timed hmem
  have hset : ∃ t ∈ i.timed start ds, t.sets e.r e.c = true := ⟨t, ht, sets_iff.mpr ⟨on, hcall⟩⟩
  have htimed : i.timed start cs = i.timed start ds ++ [⟨.commitPhysicalUpdates, i.time start ds.length,
      i.time start (ds.length + 1)⟩] := by rw [hcs, TimedOp.timed_concat]
  have hset' : ∃ t ∈ i.timed start cs, t.sets e.r e.c = true := by
    obtain ⟨t, ht, hs⟩ := hset
    exact ⟨t, by rw [htimed]; exact List.mem_append_left _ ht, hs⟩
  have hlen : cs.length = ds.length + 1 := by rw [hcs, List.length_append, List.length_singleton]
  constructor
  · refine ⟨i.time start cs.length, ?_, le_refl _, ?_⟩
    · rw [timedCalls_concat]
      change driven e.r e.c (timedCalls log ++ i.timed start cs) = _
      rw [htimed, driven_committed (fun t ht => hds _ (TimedOp.mem_timed ht).1) hset rfl, hlen]
    · refine ht0.imp id ?_
      rintro ⟨hop, ht0⟩
      exact ⟨start, sweptAt_clearAll hset' hop, TimedOp.le_time, ht0⟩
  · intro hstill
    have hzero : ∀ k, i.takes k = 0 := hstill _ (List.mem_append_right _ (List.mem_singleton_self _))
    obtain ⟨t, ht, hB⟩ := energisedAt_set (l := timedCalls log) hset'
    obtain ⟨-, k, hk⟩ := TimedOp.mem_timed ht
    rw [TimedOp.time_still hzero] at hk
    refine ⟨start, ?_, TimedOp.le_time, ?_⟩
    · rw [timedCalls_concat]
      exact hB.trans (congrArg some hk)
    · have hclock : ∀ k, i.clock start k = UInt32.ofNat start := fun k => congrArg UInt32.ofNat (TimedOp.time_still hzero)
      rcases ht0 with ht0 | ⟨-, ht0⟩ <;> rw [ht0, hclock]

end Tracked

/-- The state after the operations of `log`, from a latching matrix with driver `d`. -/
structure Pulsing (d : DriverRef) (pdur : UInt16) (log : List (TimedOp × TimedReply)) (s : TimedXPoint) : Prop where
  wellFormed : s.matrix.WellFormed
  distinct : s.matrix.pulses.Distinct
  type : s.matrix.type = .latchingDualCoil
  pdur : s.matrix.pdur = pdur
  drv : s.matrix.drv = some d
  tracked : ∀ j : Fin MAX_PULSES, (s.matrix.pulses.get j).on = true → Tracked log s.now (s.matrix.pulses.get j)

section Run
open XPoint
variable {rows cols : UInt8} {pdur : UInt16} {d : DriverRef} {log : List (TimedOp × TimedReply)} {s : TimedXPoint}
  {i : TimedOp} {x : XPoint}

/-- A timed step is a step of the table machine. -/
theorem TimedXPoint.step_tables (h : s.matrix.WellFormed) (i : TimedOp) : ∃ y,
    s.step i = some (⟨y, i.time (s.now + i.wait) (s.matrix.tables.step (i.op, i.clock (s.now + i.wait))).2.calls.length⟩,
      ⟨(s.matrix.tables.step (i.op, i.clock (s.now + i.wait))).2.ret, s.now + i.wait,
        i.timed (s.now + i.wait) (s.matrix.tables.step (i.op, i.clock (s.now + i.wait))).2.calls⟩) ∧
      y.WellFormed ∧ (s.matrix.tables.step (i.op, i.clock (s.now + i.wait))).1 = y.tables := by
  obtain ⟨y, rep, hy, hwf, ht⟩ := step_matches h (i.op, i.clock (s.now + i.wait))
  rw [ht]
  exact ⟨y, by rw [TimedXPoint.step, hy]; rfl, hwf, rfl⟩

theorem Pulsing.step (h : Pulsing d pdur log s) (hi : i.op.KeepsDriver d) :
    ∃ s' rep, s.step i = some (s', rep) ∧ Pulsing d pdur (log ++ [(i, rep)]) s' := by
  obtain ⟨y, hstep, hwf, ht⟩ := TimedXPoint.step_tables h.wellFormed i
  have hdrv : s.matrix.tables.drv.isSome = true := by
    change s.matrix.drv.isSome = true
    rw [h.drv]
    rfl
  refine ⟨_, _, hstep, hwf, ?_, ?_, ?_, ?_, fun j hon => ?_⟩
  · have hd := TableXPoint.step_distinct (a := s.matrix.tables) h.distinct (i.op, i.clock (s.now + i.wait))
    rw [ht] at hd
    exact hd
  · exact (congrArg TableXPoint.type ht).symm.trans ((TableXPoint.step_type h.distinct _).trans h.type)
  · exact (congrArg TableXPoint.pdur ht).symm.trans ((TableXPoint.step_pdur h.distinct _).trans h.pdur)
  · exact (congrArg TableXPoint.drv ht).symm.trans (TableXPoint.step_drv h.distinct h.drv hi)
  · have hp : (s.matrix.tables.step (i.op, i.clock (s.now + i.wait))).1.pulses = y.pulses := congrArg TableXPoint.pulses ht
    have hbusy : ((s.matrix.tables.step (i.op, i.clock (s.now + i.wait))).1.pulses.get j).on = true := hp ▸ hon
    have horigin := TableXPoint.step_origin h.type hdrv h.distinct (framed_tables _) hbusy
    rw [hp] at horigin
    cases horigin with
    | kept hsame hcalls =>
      have hsame : s.matrix.pulses.get j = y.pulses.get j := hsame
      exact (hsame ▸ h.tracked j (by rw [hsame]; exact hon)).kept (Nat.le_add_right _ _) hcalls
    | fresh hop ht0 on hcalls =>
      have hcalls : _ = [DriverCall.setNodeHardware _ _ on] ++ [.commitPhysicalUpdates] := hcalls
      exact .started hcalls (fun call hcall => by
        obtain rfl := List.mem_singleton.mp hcall
        exact fun h => by cases h) (List.mem_singleton_self _) (.inl ht0)
    | swept hop ht0 ds hcalls hds hmem =>
      exact .started hcalls (fun call hcall => by
        obtain ⟨r, c, rfl⟩ := hds call hcall
        exact fun h => by cases h) hmem (.inr ⟨hop, ht0⟩)

theorem XPoint.Attached.pulsing (h : Attached rows cols .latchingDualCoil pdur d x) (now : Nat) :
    Pulsing d pdur [] ⟨x, now⟩ := by
  obtain ⟨hwf, hd, valid, ht⟩ := h.spec
  refine ⟨hwf, hd, congrArg TableXPoint.type ht, congrArg TableXPoint.pdur ht, congrArg TableXPoint.drv ht, fun j hon => ?_⟩
  have hp : x.pulses = PulseTable.init := congrArg TableXPoint.pulses ht
  change (x.pulses.get j).on = true at hon
  rw [hp, idle_init j] at hon
  cases hon

/-- Every timed run succeeds, and the pulses in flight stand as its calls say. -/
theorem XPoint.Attached.run_pulsing (h : Attached rows cols .latchingDualCoil pdur d x) (now : Nat) {ops : List TimedOp}
    (hops : ∀ i ∈ ops, i.op.KeepsDriver d) :
    ∃ s log, TimedXPoint.run ⟨x, now⟩ ops = some (s, log) ∧ Pulsing d pdur log s :=
  Machine.run_rule (I := Pulsing d pdur) (P := fun _ i => i.op.KeepsDriver d) (fun _ _ _ hs hi => hs.step hi)
    (h.pulsing now) (Machine.Along.of_forall fun i hi _ => hops i hi)

/-! ### One `update` -/

/-- The wrapping subtraction of two readings is the time between them, modulo 2^32. -/
theorem due_iff {e : PulseEvent} {B T : Nat} (hB : B ≤ T) (ht0 : e.t0 = UInt32.ofNat B) :
    due (UInt32.ofNat T) pdur e = true ↔ pdur.toNat ≤ (T - B) % 4294967296 := by
  have hsub : (UInt32.ofNat T - e.t0).toNat = (T - B) % 4294967296 := by
    rw [ht0, UInt32.toNat_sub, UInt32.toNat_ofNat', UInt32.toNat_ofNat']
    omega
  rw [due, decide_eq_true_eq, ge_iff_le, UInt32.le_iff_toNat_le, hsub, UInt16.toNat_toUInt32]

/-- The calls of an `update` that leaves the slots `p` at the reading `now`. -/
def releases (p : PulseTable) (now : UInt32) (pdur : UInt16) : List DriverCall :=
  ((List.finRange MAX_PULSES).filter fun j => (p.get j).on && due now pdur (p.get j)).map fun j =>
    .releaseNode (p.get j).r (p.get j).c

theorem mem_releases {p : PulseTable} {now : UInt32} {r c : UInt8} : .releaseNode r c ∈ releases p now pdur ↔
    ∃ j : Fin MAX_PULSES, (p.get j).names r c = true ∧ due now pdur (p.get j) = true := by
  simp only [releases, List.mem_map, List.mem_filter, List.mem_finRange, true_and, Bool.and_eq_true,
    DriverCall.releaseNode.injEq, names_iff]
  exact exists_congr fun j => ⟨fun h => ⟨⟨h.1.1, h.2⟩, h.1.2⟩, fun h => ⟨⟨h.1.1, h.2⟩, h.1.2⟩⟩

theorem releases_nodup {p : PulseTable} (h : p.Distinct) (now : UInt32) : (releases p now pdur).Nodup := by
  refine List.Nodup.map_on (fun i hi j hj heq => ?_) ((List.nodup_finRange _).filter _)
  obtain ⟨hr, hc⟩ := DriverCall.releaseNode.inj heq
  have hion := (Bool.and_eq_true_iff.mp (List.mem_filter.mp hi).2).1
  have hjon := (Bool.and_eq_true_iff.mp (List.mem_filter.mp hj).2).1
  exact h i j _ _ (names_self hion) (names_iff.mpr ⟨hjon, hr.symm, hc.symm⟩)

/-- The calls of an `update` at the reading `now`: one release for each pulse that is due, then one commit. -/
def updateCalls (p : PulseTable) (now : UInt32) (pdur : UInt16) : List DriverCall :=
  releases p now pdur ++ if (releases p now pdur).isEmpty then [] else [.commitPhysicalUpdates]

theorem update_spec (ht : x.type = .latchingDualCoil) (hdrv : x.drv.isSome = true) (millis : Clock) :
    ∃ pulses, x.update millis = (x.setPulses pulses, ⟨none, updateCalls x.pulses (millis 0) x.pdur⟩) ∧
      ∀ j : Fin MAX_PULSES, pulses.get j = expired (millis 0) x.pdur (x.pulses.get j) := by
  obtain ⟨pulses, released, hexp⟩ : ∃ pulses released, x.pulses.expire (millis 0) x.pdur = (pulses, released) :=
    ⟨_, _, Prod.mk.eta.symm⟩
  have hget : ∀ j : Fin MAX_PULSES, (x.pulses.expire (millis 0) x.pdur).1.get j =
      expired (millis 0) x.pdur (x.pulses.get j) := fun _ => expire_get
  simp only [hexp] at hget
  have hreleased := (congrArg Prod.snd hexp).symm.trans expire_released
  dsimp only at hreleased
  have hmap : released.map (fun n => DriverCall.releaseNode n.1 n.2) = releases x.pulses (millis 0) x.pdur := by
    rw [hreleased, List.map_map]
    rfl
  refine ⟨pulses, ?_, hget⟩
  have hempty : released.isEmpty = (releases x.pulses (millis 0) x.pdur).isEmpty := by rw [← hmap, List.isEmpty_map]
  simp only [XPoint.update, hexp, ht, ne_eq, not_true_eq_false, ↓reduceIte, hmap, hempty, XPoint.drive, hdrv, updateCalls]

/-- An `update` at a state of a timed run. -/
theorem Pulsing.update (h : Pulsing d pdur log s) (hop : i.op = .update) : ∃ pulses,
    s.step i = some (⟨s.matrix.setPulses pulses, i.time (s.now + i.wait)
        (updateCalls s.matrix.pulses (UInt32.ofNat (s.now + i.wait)) pdur).length⟩,
      ⟨none, s.now + i.wait, i.timed (s.now + i.wait) (updateCalls s.matrix.pulses (UInt32.ofNat (s.now + i.wait)) pdur)⟩) ∧
      ∀ j : Fin MAX_PULSES, pulses.get j = expired (UInt32.ofNat (s.now + i.wait)) pdur (s.matrix.pulses.get j) := by
  have hdrv : s.matrix.drv.isSome = true := by
    rw [h.drv]
    rfl
  obtain ⟨pulses, hupdate, hget⟩ := update_spec h.type hdrv (i.clock (s.now + i.wait))
  rw [h.pdur] at hupdate hget
  refine ⟨pulses, ?_, hget⟩
  have hstep : s.matrix.step (i.op, i.clock (s.now + i.wait)) = some (s.matrix.update (i.clock (s.now + i.wait))) := by
    rw [hop]
    rfl
  rw [TimedXPoint.step, hstep, hupdate]
  rfl

end Run

section Expires
variable {pdur : UInt16} {d : DriverRef} {log : List (TimedOp × TimedReply)} {s : TimedXPoint} {i : TimedOp}

/-- An `update` at time `T` takes the slots from `p` to `p'` with the calls `cs`; `before` are the calls of the
    run so far, the last of which on the node of a pulse says when that pulse was started. -/
structure Expires (pdur : UInt16) (before : List TimedCall) (T : Nat) (p p' : PulseTable) (cs : List DriverCall) :
    Prop where
  started : ∀ (j : Fin MAX_PULSES) r c, (p.get j).names r c = true → ∃ B, energisedAt r c before = some B ∧ B ≤ T
  early : ∀ (j : Fin MAX_PULSES) r c B, (p.get j).names r c = true → energisedAt r c before = some B →
    .releaseNode r c ∈ cs ∨ (p'.get j).on = false → pdur.toNat ≤ T - B
  released : ∀ (j : Fin MAX_PULSES) r c B, (p.get j).names r c = true → energisedAt r c before = some B →
    pdur.toNat ≤ T - B → T - B < 4294967296 → cs.count (.releaseNode r c) = 1 ∧ (p'.get j).on = false
  kept : ∀ (j : Fin MAX_PULSES) r c B, (p.get j).names r c = true → energisedAt r c before = some B →
    T - B < pdur.toNat → p'.get j = p.get j
  free : ∀ j : Fin MAX_PULSES, (p.get j).on = false → p'.get j = p.get j
  commit : cs = [] ∨ ∃ ns : List (UInt8 × UInt8), ns ≠ [] ∧
    cs = ns.map (fun n => .releaseNode n.1 n.2) ++ [.commitPhysicalUpdates]
  remain : (∀ (j : Fin MAX_PULSES) r c B, (p.get j).names r c = true → energisedAt r c before = some B →
    T - B < 4294967296) → ∀ (j : Fin MAX_PULSES) r c B, (p.get j).names r c = true → energisedAt r c before = some B →
      ((p'.get j).names r c = true ↔ T - B < pdur.toNat)
  quiet : (∀ (j : Fin MAX_PULSES) r c B, (p.get j).names r c = true → energisedAt r c before = some B →
    T - B < pdur.toNat) → cs = []

theorem updateCalls_commit (p : PulseTable) (now : UInt32) (pdur : UInt16) : updateCalls p now pdur = [] ∨
    ∃ ns : List (UInt8 × UInt8), ns ≠ [] ∧
      updateCalls p now pdur = ns.map (fun n => .releaseNode n.1 n.2) ++ [.commitPhysicalUpdates] := by
  let ns := ((List.finRange MAX_PULSES).filter fun j => (p.get j).on && due now pdur (p.get j)).map fun j =>
    ((p.get j).r, (p.get j).c)
  have hns : releases p now pdur = ns.map fun n => .releaseNode n.1 n.2 := by
    rw [List.map_map]
    rfl
  rw [updateCalls, hns, List.isEmpty_map]
  cases hempty : ns with
  | nil => exact .inl rfl
  | cons n m => exact .inr ⟨n :: m, List.cons_ne_nil n m, rfl⟩

theorem updateCalls_nodup {p : PulseTable} (h : p.Distinct) (now : UInt32) : (updateCalls p now pdur).Nodup := by
  refine (releases_nodup h now).append ?_ fun call hcall hcommit => ?_
  · split
    · exact List.nodup_nil
    · exact List.nodup_singleton _
  · obtain ⟨j, -, rfl⟩ := List.mem_map.mp hcall
    split at hcommit
    · cases hcommit
    · cases List.mem_singleton.mp hcommit

theorem mem_updateCalls {p : PulseTable} {now : UInt32} {r c : UInt8} :
    .releaseNode r c ∈ updateCalls p now pdur ↔ .releaseNode r c ∈ releases p now pdur := by
  rw [updateCalls, List.mem_append]
  refine or_iff_left fun h => ?_
  split at h
  · cases h
  · cases List.mem_singleton.mp h

/-- After a run whose driver calls take no time, `update` goes by the age of each pulse. -/
theorem Pulsing.expires (h : Pulsing d pdur log s) (hstill : ∀ x ∈ log, ∀ k, x.1.takes k = 0) {T : Nat} (hT : s.now ≤ T)
    {p' : PulseTable} (hp' : ∀ j : Fin MAX_PULSES, p'.get j = expired (UInt32.ofNat T) pdur (s.matrix.pulses.get j)) :
    Expires pdur (timedCalls log) T s.matrix.pulses p' (updateCalls s.matrix.pulses (UInt32.ofNat T) pdur) := by
  -- The slots are due by their age.
  have hage : ∀ (j : Fin MAX_PULSES) r c B, (s.matrix.pulses.get j).names r c = true →
      energisedAt r c (timedCalls log) = some B → B ≤ T ∧ (s.matrix.pulses.get j).on = true ∧
        (due (UInt32.ofNat T) pdur (s.matrix.pulses.get j) = true ↔ pdur.toNat ≤ (T - B) % 4294967296) := by
    intro j r c B hj hB
    obtain ⟨hon, rfl, rfl⟩ := names_iff.mp hj
    obtain ⟨B', hB', hle, ht0⟩ := (h.tracked j hon).still hstill
    obtain rfl : B' = B := Option.some.inj (hB'.symm.trans hB)
    exact ⟨hle.trans hT, hon, due_iff (hle.trans hT) ht0⟩
  have hslot : ∀ (j : Fin MAX_PULSES) r c, (s.matrix.pulses.get j).names r c = true →
      (.releaseNode r c ∈ updateCalls s.matrix.pulses (UInt32.ofNat T) pdur ↔
        due (UInt32.ofNat T) pdur (s.matrix.pulses.get j) = true) := by
    intro j r c hj
    rw [mem_updateCalls, mem_releases]
    refine ⟨fun ⟨i, hi, hdue⟩ => ?_, fun hdue => ⟨j, hj, hdue⟩⟩
    rwa [← h.distinct i j r c hi hj]
  have hoff : ∀ (j : Fin MAX_PULSES), (s.matrix.pulses.get j).on = true →
      ((p'.get j).on = false ↔ due (UInt32.ofNat T) pdur (s.matrix.pulses.get j) = true) := by
    intro j hon
    rw [hp', ← Bool.not_eq_true, expired_on]
    simp [hon]
  have hpdur := pdur.toNat_lt
  refine ⟨fun j r c hj => ?_, fun j r c B hj hB hrel => ?_, fun j r c B hj hB hold hyoung => ?_,
    fun j r c B hj hB hyoung => ?_,
    fun j hfree => ?_, updateCalls_commit _ _ _, fun hyoung j r c B hj hB => ?_, fun hyoung => ?_⟩
  · obtain ⟨hon, rfl, rfl⟩ := names_iff.mp hj
    obtain ⟨B, hB, hle, -⟩ := (h.tracked j hon).still hstill
    exact ⟨B, hB, hle.trans hT⟩
  · obtain ⟨-, hon, hdue⟩ := hage j r c B hj hB
    have hle := hdue.mp (hrel.elim (hslot j r c hj).mp (hoff j hon).mp)
    exact hle.trans (Nat.mod_le _ _)
  · obtain ⟨-, hon, hdue⟩ := hage j r c B hj hB
    have hdue := hdue.mpr (by rwa [Nat.mod_eq_of_lt hyoung])
    refine ⟨List.count_eq_one_of_mem (updateCalls_nodup h.distinct _) ((hslot j r c hj).mpr hdue), (hoff j hon).mpr hdue⟩
  · obtain ⟨-, -, hdue⟩ := hage j r c B hj hB
    rw [hp', expired_of_not]
    rintro ⟨-, hd⟩
    have := hdue.mp hd
    rw [Nat.mod_eq_of_lt (by omega)] at this
    omega
  · rw [hp', expired_of_not]
    rintro ⟨hon, -⟩
    cases hfree.symm.trans hon
  · obtain ⟨-, hon, hdue⟩ := hage j r c B hj hB
    rw [Nat.mod_eq_of_lt (hyoung j r c B hj hB)] at hdue
    rw [← not_le, ← hdue, names_iff, hp']
    constructor
    · rintro ⟨hon', -⟩ hd
      cases (expired_on.mp hon').2.symm.trans hd
    · intro hd
      rw [expired_of_not fun hno => hd hno.2]
      exact names_iff.mp hj
  · refine (updateCalls_commit _ _ _).resolve_right ?_
    rintro ⟨ns, hne, heq⟩
    obtain ⟨n, m, rfl⟩ := List.exists_cons_of_ne_nil hne
    have hmem : .releaseNode n.1 n.2 ∈ updateCalls s.matrix.pulses (UInt32.ofNat T) pdur := by simp [heq]
    obtain ⟨j, hj, hd⟩ := mem_releases.mp (mem_updateCalls.mp hmem)
    obtain ⟨hon, hr, hc⟩ := names_iff.mp hj
    obtain ⟨B, hB, -, -⟩ := (h.tracked j hon).still hstill
    rw [hr, hc] at hB
    obtain ⟨-, -, hdue⟩ := hage j _ _ B hj hB
    have := hdue.mp hd
    have := hyoung j _ _ B hj hB
    rw [Nat.mod_eq_of_lt (by omega)] at *
    omega

/-- In every run of a latching matrix whose operations take no time, every pulse in flight was started by the last
    call on its node, and an `update` at any later time releases it by its age, across any number of rollovers
    of the clock. -/
theorem XPoint.run_expires {rows cols : UInt8} {x : XPoint} (h : XPoint.Attached rows cols .latchingDualCoil pdur d x)
    (now : Nat) {ops : List TimedOp} (hops : ∀ i ∈ ops, i.op.KeepsDriver d) (hstill : ∀ i ∈ ops, ∀ k, i.takes k = 0)
    (hop : i.op = .update) : ∃ s log s' cs, TimedXPoint.run ⟨x, now⟩ ops = some (s, log) ∧
      s.step i = some (s', ⟨none, s.now + i.wait, i.timed (s.now + i.wait) cs⟩) ∧ s'.matrix.pool = s.matrix.pool ∧
      Expires pdur (timedCalls log) (s.now + i.wait) s.matrix.pulses s'.matrix.pulses cs := by
  obtain ⟨s, log, hrun, hs⟩ := h.run_pulsing now hops
  obtain ⟨pulses, hstep, hget⟩ := hs.update hop
  have hlog : ∀ e ∈ log, ∀ k, e.1.takes k = 0 := fun e he =>
    hstill e.1 (Machine.run_inputs hrun ▸ List.mem_map_of_mem he)
  exact ⟨s, log, _, _, hrun, hstep, rfl, hs.expires hlog (Nat.le_add_right _ _) hget⟩

/-- A pulse that spans a rollover of the 32-bit clock. -/
theorem XPoint.run_expires_rollover : ∃ x, XPoint.Attached 2 2 .latchingDualCoil 5 0 x ∧ ∃ s log s' cs,
    TimedXPoint.run ⟨x, 4294967290⟩ [⟨.connect 0 1, 3, fun _ => 0⟩, ⟨.clearAll, 2, fun _ => 0⟩] = some (s, log) ∧
      s.step ⟨.update, 5, fun _ => 0⟩ =
        some (s', ⟨none, s.now + 5, TimedOp.timed ⟨.update, 5, fun _ => 0⟩ (s.now + 5) cs⟩) ∧
      s'.matrix.pool = s.matrix.pool ∧
      Expires 5 (timedCalls log) (s.now + 5) s.matrix.pulses s'.matrix.pulses cs := by
  obtain ⟨x, hx⟩ := XPoint.exists_attached 2 2 .latchingDualCoil 5 0
  have hops : ∀ i ∈ [(⟨.connect 0 1, 3, fun _ => 0⟩ : TimedOp), ⟨.clearAll, 2, fun _ => 0⟩], i.op.KeepsDriver 0 := by
    simp [Op.KeepsDriver]
  exact ⟨x, hx, XPoint.run_expires hx 4294967290 hops (by simp) rfl⟩

/-! ### Operations that take time -/

theorem emits_release {op : Op} {r c : UInt8} (h : op.Emits (.release r c)) : op = .update := by
  cases op <;> simp [Op.Emits] at h
  rfl

theorem TableXPoint.no_release {a : TableXPoint} {op : Op} {millis : Clock} {r c : UInt8} (hd : a.pulses.Distinct)
    (hop : op ≠ .update) : .releaseNode r c ∉ (a.step (op, millis)).2.calls := by
  obtain ⟨es, hes⟩ := step_events hd (op, millis)
  intro hmem
  rw [hes.calls, drive] at hmem
  split at hmem
  · obtain ⟨e, he, hcall⟩ := List.mem_flatMap.mp hmem
    have hemits := hes.emits e he
    cases e <;> simp [Event.calls] at hcall
    exact hop (emits_release hemits)
  · cases hmem

/-- The releases of an `update` outside the time that `Spaced` rules out. -/
theorem Pulsing.rested (h : Pulsing d pdur log s) (ret : Option Bool) {T : Nat} (hT : s.now ≤ T) (hop : i.op = .update)
    (hspaced : ∀ cs, Spaced pdur log (i, ⟨ret, T, cs⟩)) : Preceded (fun pre t => Rested pdur (timedCalls log ++ pre) t)
      (i.timed T (updateCalls s.matrix.pulses (UInt32.ofNat T) pdur)) := by
  intro pre t post hsplit r c hcall
  have hmem : ∀ u ∈ pre ++ t :: post, u.call ∈ updateCalls s.matrix.pulses (UInt32.ofNat T) pdur ∧
      ∃ k, u.begins = i.time T k := fun u hu => TimedOp.mem_timed (hsplit ▸ hu)
  obtain ⟨ht, k, hk⟩ := hmem t (by simp)
  rw [hcall] at ht
  obtain ⟨j, hj, hdue⟩ := mem_releases.mp (mem_updateCalls.mp ht)
  obtain ⟨hon, rfl, rfl⟩ := names_iff.mp hj
  obtain ⟨C, hC, hle, ht0⟩ := (h.tracked j hon).committed
  have hpre : ∀ u ∈ pre, u.sets (s.matrix.pulses.get j).r (s.matrix.pulses.get j).c = false := fun u hu => by
    refine Bool.eq_false_iff.mpr fun hset => ?_
    obtain ⟨on, hset⟩ := sets_iff.mp hset
    have hu := (hmem u (List.mem_append_left _ hu)).1
    rw [hset] at hu
    rcases updateCalls_commit s.matrix.pulses (UInt32.ofNat T) pdur with heq | ⟨ns, -, heq⟩ <;> simp [heq] at hu
  refine ⟨C, driven_kept hC hpre, ?_⟩
  have hbegins : T ≤ t.begins := hk ▸ TimedOp.le_time
  have hpdur := pdur.toNat_lt
  rcases ht0 with ht0 | ⟨S, hS, hSC, ht0⟩
  · have := ((due_iff (hle.trans hT) ht0).mp hdue).trans (Nat.mod_le _ _)
    omega
  · have hold := (due_iff ((hSC.trans hle).trans hT) ht0).mp hdue
    rcases hspaced [] hop _ _ S C hS hC with hyoung | hrest
    · change (T - S) % 4294967296 < pdur.toNat at hyoung
      omega
    · exact hrest.trans hbegins

/-- In every timed run of a latching matrix with a driver attached, if no `update` comes in the time between the
    end of a pulse by the clock reading of `clearAll` and its end by the return of its commit, every release
    comes `pdur` ms or more after the commit that energised the coil. -/
theorem XPoint.run_rests {rows cols : UInt8} {x : XPoint} (h : XPoint.Attached rows cols .latchingDualCoil pdur d x)
    (now : Nat) {ops : List TimedOp} (hops : ∀ i ∈ ops, i.op.KeepsDriver d) :
    ∃ s log, TimedXPoint.run ⟨x, now⟩ ops = some (s, log) ∧
      (Preceded (Spaced pdur) log → Preceded (Rested pdur) (timedCalls log)) := by
  obtain ⟨s, log, hrun, -, hrest⟩ := Machine.run_rule (P := fun _ i => i.op.KeepsDriver d)
    (I := fun log s => Pulsing d pdur log s ∧ (Preceded (Spaced pdur) log → Preceded (Rested pdur) (timedCalls log)))
    (fun log s i ⟨hs, ih⟩ hi => by
      obtain ⟨s', rep, hstep, hs'⟩ := hs.step hi
      refine ⟨s', rep, hstep, hs', fun hspaced => ?_⟩
      obtain ⟨hspaced, hlast⟩ := preceded_concat.mp hspaced
      rw [timedCalls_concat]
      refine preceded_append.mpr ⟨ih hspaced, ?_⟩
      by_cases hop : i.op = .update
      · obtain ⟨pulses, hstep', -⟩ := hs.update hop
        obtain ⟨rfl, rfl⟩ := Prod.mk.inj (Option.some.inj (hstep'.symm.trans hstep))
        exact hs.rested none (Nat.le_add_right _ _) hop fun _ => hlast
      · obtain ⟨y, hstep', -, -⟩ := TimedXPoint.step_tables hs.wellFormed i
        obtain ⟨rfl, rfl⟩ := Prod.mk.inj (Option.some.inj (hstep'.symm.trans hstep))
        intro pre t post hsplit r c hcall
        have hmem := (TimedOp.mem_timed (hsplit ▸ List.mem_append_right pre List.mem_cons_self)).1
        rw [hcall] at hmem
        exact absurd hmem (TableXPoint.no_release hs.distinct hop))
    ⟨h.pulsing now, fun _ => preceded_nil⟩ (Machine.Along.of_forall fun i hi _ => hops i hi)
  exact ⟨s, log, hrun, hrest⟩

theorem driven_ends {r c : UInt8} {l : List TimedCall} {C : Nat} (h : driven r c l = .committed C) :
    ∃ t ∈ l, t.ends = C := by
  induction l using List.reverseRecOn with
  | nil => cases h
  | append_singleton l t ih =>
    rw [driven, List.foldl_append, List.foldl_cons, List.foldl_nil, Driven.take] at h
    split at h
    · cases h
    · split at h
      · exact ⟨t, List.mem_append_right _ (List.mem_singleton_self t), Driven.committed.inj h⟩
      · obtain ⟨u, hu, hends⟩ := ih h
        exact ⟨u, List.mem_append_left _ hu, hends⟩

/-- An `update` that comes `pdur` ms or more after all driver calls before it is not in that time. -/
theorem spaced_after {l : List (TimedOp × TimedReply)} {e : TimedOp × TimedReply}
    (h : ∀ t ∈ timedCalls l, t.ends + pdur.toNat ≤ e.2.began) : Spaced pdur l e := fun _ r c S C _ hC => by
  obtain ⟨t, ht, rfl⟩ := driven_ends hC
  exact .inr (h t ht)

/-- Slow driver calls: the pulse of a `connect` is counted from the return of its commit, and the `update` after a
    `clearAll` comes late enough for its pulse. -/
theorem XPoint.run_rests_slow_driver : ∃ x, XPoint.Attached 2 2 .latchingDualCoil 5 0 x ∧ ∃ s log,
    TimedXPoint.run ⟨x, 0⟩ [⟨.connect 0 1, 0, fun _ => 7⟩, ⟨.update, 9, fun _ => 1⟩, ⟨.clearAll, 2, fun _ => 2⟩,
      ⟨.update, 5, fun _ => 1⟩] = some (s, log) ∧ sweptAt 0 1 log = some 27 ∧
      (timedCalls log).getLast? = some ⟨.commitPhysicalUpdates, 37, 38⟩ ∧ Preceded (Rested 5) (timedCalls log) := by
  let ops : List TimedOp := [⟨.connect 0 1, 0, fun _ => 7⟩, ⟨.update, 9, fun _ => 1⟩, ⟨.clearAll, 2, fun _ => 2⟩,
    ⟨.update, 5, fun _ => 1⟩]
  let replies : List TimedReply := [⟨some true, 0, [⟨.setNodeHardware 0 1 true, 0, 7⟩, ⟨.commitPhysicalUpdates, 7, 14⟩]⟩,
    ⟨none, 23, [⟨.releaseNode 0 1, 23, 24⟩, ⟨.commitPhysicalUpdates, 24, 25⟩]⟩,
    ⟨none, 27, [⟨.setNodeHardware 0 1 false, 27, 29⟩, ⟨.commitPhysicalUpdates, 29, 31⟩]⟩,
    ⟨none, 36, [⟨.releaseNode 0 1, 36, 37⟩, ⟨.commitPhysicalUpdates, 37, 38⟩]⟩]
  have hreplies :
      ((XPoint.heap 2 2 .latchingDualCoil 5).bind fun y => (TimedXPoint.run ⟨(y.setDriver (some 0)).1, 0⟩ ops).map
      fun t => t.2.map Prod.snd) = some replies := by
    decide +kernel
  obtain ⟨y, s, log, hy, hrun, hreplies⟩ := Machine.run_of_bind hreplies
  have hx : XPoint.Attached 2 2 .latchingDualCoil 5 0 (y.setDriver (some 0)).1 := ⟨y, .heap hy, rfl⟩
  obtain ⟨s', log', hrun', hrest⟩ :=
    XPoint.run_rests hx 0 (show ∀ i ∈ ops, i.op.KeepsDriver 0 by simp [ops, Op.KeepsDriver])
  obtain ⟨rfl, rfl⟩ := Prod.mk.inj (Option.some.inj (hrun'.symm.trans hrun))
  have hlog : log' = ops.zip replies := List.zip_of_prod (Machine.run_inputs hrun) hreplies
  refine ⟨_, hx, s', log', hrun, by rw [hlog]; decide, by rw [hlog]; decide, hrest ?_⟩
  rw [hlog]
  change Preceded (Spaced 5) (((([] ++ [_]) ++ [_]) ++ [_]) ++ [_])
  simp only [preceded_concat, preceded_nil, true_and]
  exact ⟨⟨⟨fun h => (by cases h), spaced_after (by decide)⟩, fun h => (by cases h)⟩, spaced_after (by decide)⟩

/-- `clearAll` reads the clock at 5 and its two driver calls take 10 ms each; the `update` at 25 takes the pulse for
    20 ms old and releases it at once after its commit. -/
theorem XPoint.clearAll_shortens_pulse : ∃ x s log, XPoint.Attached 1 1 .latchingDualCoil 5 0 x ∧
    TimedXPoint.run ⟨x, 0⟩ [⟨.connect 0 0, 0, fun _ => 0⟩, ⟨.update, 5, fun _ => 0⟩, ⟨.clearAll, 0, fun _ => 10⟩,
      ⟨.update, 0, fun _ => 0⟩] = some (s, log) ∧ ¬Preceded (Rested 5) (timedCalls log) := by
  let ops : List TimedOp := [⟨.connect 0 0, 0, fun _ => 0⟩, ⟨.update, 5, fun _ => 0⟩, ⟨.clearAll, 0, fun _ => 10⟩,
    ⟨.update, 0, fun _ => 0⟩]
  let pre : List TimedCall := [⟨.setNodeHardware 0 0 true, 0, 0⟩, ⟨.commitPhysicalUpdates, 0, 0⟩, ⟨.releaseNode 0 0, 5, 5⟩,
    ⟨.commitPhysicalUpdates, 5, 5⟩, ⟨.setNodeHardware 0 0 false, 5, 15⟩, ⟨.commitPhysicalUpdates, 15, 25⟩]
  have hrun : ((XPoint.heap 1 1 .latchingDualCoil 5).bind fun y => (TimedXPoint.run ⟨(y.setDriver (some 0)).1, 0⟩ ops).map
      fun t => timedCalls t.2) = some (pre ++ [⟨.releaseNode 0 0, 25, 25⟩, ⟨.commitPhysicalUpdates, 25, 25⟩]) := by
    decide +kernel
  obtain ⟨y, s, log, hy, hrun, hcalls⟩ := Machine.run_of_bind hrun
  refine ⟨_, s, log, ⟨y, .heap hy, rfl⟩, hrun, fun hrest => ?_⟩
  have hcalls : timedCalls log = pre ++ ⟨.releaseNode 0 0, 25, 25⟩ :: [⟨.commitPhysicalUpdates, 25, 25⟩] := hcalls
  obtain ⟨C, hC, hle⟩ := hrest pre ⟨.releaseNode 0 0, 25, 25⟩ _ hcalls 0 0 rfl
  obtain rfl : 25 = C := Driven.committed.inj ((show driven 0 0 pre = .committed 25 by decide).symm.trans hC)
  exact absurd hle (by decide)

end Expires

end Crosspoint
