import Crosspoint.Events

/-! Every operation of the table machine is a sequence of events (`step_events`), from any state whose
    slots are distinct, and the events keep them distinct. -/

namespace Crosspoint.TableXPoint
open Loops PulseTable

variable {a b b' : TableXPoint} {e : Event} {es : List Event} {op : Op} {calls : List DriverCall}
  {r c : UInt8} {on : Bool} {millis : Clock}

/-! ### What every event keeps -/

theorem Does.rows (h : Does a e b) : b.rows = a.rows := by
  cases h <;> rfl

theorem Does.cols (h : Does a e b) : b.cols = a.cols := by
  cases h <;> rfl

theorem Does.type (h : Does a e b) : b.type = a.type := by
  cases h <;> rfl

theorem Does.valid (h : Does a e b) : b.valid = a.valid := by
  cases h <;> rfl

theorem Does.pdur (h : Does a e b) : b.pdur = a.pdur := by
  cases h <;> rfl

theorem Does.drv (h : Does a e b) (he : ∀ drv, e ≠ .attach drv) : b.drv = a.drv := by
  cases h with
  | attach => exact absurd rfl (he _)
  | _ => rfl

theorem Does.pulses (h : Does a e b) (ha : a.type = .nonLatching) : b.pulses = a.pulses := by
  cases h with
  | pulse ht => cases ht.symm.trans ha
  | repulse ht => cases ht.symm.trans ha
  | release ht => cases ht.symm.trans ha
  | _ => rfl

theorem Does.distinct (h : Does a e b) (ha : a.pulses.Distinct) : b.pulses.Distinct := by
  cases h with
  | pulse _ _ _ hp _ => exact ha.put_fresh hp
  | repulse _ _ _ hi => exact ha.put_own hi
  | release _ _ => exact ha.freed _
  | _ => exact ha

/-! ### Which operations emit an event -/

theorem emits_attach {drv : Option DriverRef} (h : op.Emits (.attach drv)) : op = .setDriver drv := by
  cases op <;> simp [Op.Emits] at h
  rw [h]

theorem emits_lock {rowA rowB : UInt8} (h : op.Emits (.lock rowA rowB)) : op = .lockRows rowA rowB := by
  cases op <;> simp [Op.Emits] at h
  rw [h.1, h.2]

theorem emits_exclude {col : UInt8} (h : op.Emits (.exclude col)) : op = .exclusiveInput col := by
  cases op <;> simp [Op.Emits] at h
  rw [h]

theorem emits_begin (h : op.Emits .begin) : op = .begin := by
  cases op <;> simp [Op.Emits] at h
  rfl

theorem emits_skip (h : op.Emits (.skip r c)) : op = .clearAll := by
  cases op <;> simp [Op.Emits] at h
  rfl

/-! ### Sequences of events -/

theorem drive_nil : a.drive [] = [] := by
  simp [drive]

theorem drive_append (cs ds : List DriverCall) : a.drive (cs ++ ds) = a.drive cs ++ a.drive ds := by
  unfold drive
  split <;> simp

theorem drive_congr (h : b.drv = a.drv) (cs : List DriverCall) : b.drive cs = a.drive cs := by
  rw [drive, drive, h]

/-- The operation `op` takes `a` to `b` by the events `es`, and `calls` are the calls it makes. -/
structure Decomposes (a : TableXPoint) (op : Op) (b : TableXPoint) (calls : List DriverCall) (es : List Event) : Prop where
  steps : Machine.Steps Does a es b
  calls : calls = a.drive (es.flatMap Event.calls)
  emits : ∀ e ∈ es, op.Emits e

namespace Decomposes

theorem nil : Decomposes a op a [] [] := ⟨.nil a, drive_nil.symm, fun _ he => absurd he List.not_mem_nil⟩

theorem snoc (h : Decomposes a op b calls es) (hb : Does b e b') (he : op.Emits e) :
    Decomposes a op b' (calls ++ a.drive e.calls) (es ++ [e]) where
  steps := h.steps.append (.single hb)
  calls := by rw [h.calls, Traces.flatMap_concat, drive_append]
  emits e' he' := by
    rcases List.mem_append.mp he' with he' | he'
    · exact h.emits e' he'
    · exact List.mem_singleton.mp he' ▸ he

theorem single (hb : Does a e b) (he : op.Emits e) (hcalls : calls = a.drive e.calls) :
    Decomposes a op b calls [e] := by
  rw [hcalls]
  exact nil.snoc hb he

theorem distinct (h : Decomposes a op b calls es) (ha : a.pulses.Distinct) : b.pulses.Distinct :=
  h.steps.inv (I := fun s => s.pulses.Distinct) (fun _ _ _ hs _ hd => hd.distinct hs) ha

theorem drv (h : Decomposes a op b calls es) (hop : ∀ drv, op ≠ .setDriver drv) : b.drv = a.drv :=
  h.steps.inv (I := fun s => s.drv = a.drv)
    (fun _ _ _ hs he hd => (hd.drv fun drv hdrv => hop drv (emits_attach (hdrv ▸ h.emits _ he))).trans hs) rfl

theorem type (h : Decomposes a op b calls es) : b.type = a.type :=
  h.steps.inv (I := fun s => s.type = a.type) (fun _ _ _ hs _ hd => hd.type.trans hs) rfl

theorem rows (h : Decomposes a op b calls es) : b.rows = a.rows :=
  h.steps.inv (I := fun s => s.rows = a.rows) (fun _ _ _ hs _ hd => hd.rows.trans hs) rfl

theorem cols (h : Decomposes a op b calls es) : b.cols = a.cols :=
  h.steps.inv (I := fun s => s.cols = a.cols) (fun _ _ _ hs _ hd => hd.cols.trans hs) rfl

theorem valid (h : Decomposes a op b calls es) : b.valid = a.valid :=
  h.steps.inv (I := fun s => s.valid = a.valid) (fun _ _ _ hs _ hd => hd.valid.trans hs) rfl

theorem pdur (h : Decomposes a op b calls es) : b.pdur = a.pdur :=
  h.steps.inv (I := fun s => s.pdur = a.pdur) (fun _ _ _ hs _ hd => hd.pdur.trans hs) rfl

/-- An invariant of the driver calls so far and the tables that every event keeps is kept by the operation. -/
theorem keeps {J : List DriverCall → TableXPoint → Prop} {cs : List DriverCall} (h : Decomposes a op b calls es)
    (hdrv : a.drv.isSome = true) (hd : a.pulses.Distinct) (hJ : J cs a)
    (hev : ∀ cs s e t, J cs s → s.pulses.Distinct → e ∈ es → Does s e t → J (cs ++ e.calls) t) : J (cs ++ calls) b := by
  have hI := h.steps.rule (I := fun es s => J (cs ++ es.flatMap Event.calls) s ∧ s.pulses.Distinct)
    (fun es s e t hs he hdo => ⟨by
      rw [Traces.flatMap_concat, ← List.append_assoc]
      exact hev _ s e t hs.1 hs.2 he hdo, hdo.distinct hs.2⟩)
    ⟨by rw [List.flatMap_nil, List.append_nil]; exact hJ, hd⟩
  rw [h.calls, drive, if_pos hdrv]
  exact hI.1

end Decomposes

/-! ### The operations -/

theorem Decomposes.committed {call : DriverCall} (hb : Does a e b) (hcall : e.calls = [call]) (he : op.Emits e)
    (hc : op.Emits .commit) : Decomposes a op b (a.drive [call, .commitPhysicalUpdates]) [e, .commit] := by
  have h := (nil.snoc hb he).snoc .commit hc
  rwa [hcall, Event.calls, List.nil_append, ← drive_append] at h

theorem switchNode_events (h : a.Allows r c on) (hoff : on = false → a.conn r c = true)
    (hs : a.type = .nonLatching → op.Emits (.switch r c on)) (hp : op.Emits (.pulse r c on)) (hc : op.Emits .commit) :
    ∃ es, Decomposes a op (a.switchNode millis r c on).1 (a.switchNode millis r c on).2.calls es := by
  unfold switchNode
  split
  · rename_i ht
    cases halloc : a.pulses.alloc r c with
    | none => exact ⟨[], .nil⟩
    | some i =>
      obtain ⟨hpend, hfree⟩ := alloc_eq_some halloc
      exact ⟨_, .committed (.pulse ht h hoff hpend hfree) rfl hp hc⟩
  · rename_i ht
    exact ⟨_, .committed (.switch ht h) rfl (hs ht) hc⟩

theorem connect_events (a : TableXPoint) (millis : Clock) (row col : UInt8) :
    ∃ es, Decomposes a (.connect row col) (a.connect millis row col).1 (a.connect millis row col).2.calls es := by
  unfold connect
  split
  · exact ⟨[], .nil⟩
  · rename_i hin
    obtain ⟨-, hr, hc⟩ := inside hin
    split
    · exact ⟨[], .nil⟩
    · rename_i hb
      split
      · exact ⟨[], .nil⟩
      · exact switchNode_events ⟨hr, hc, fun _ => by simpa using hb⟩ (fun h => nomatch h) (fun _ => .inl rfl)
          (.inr (.inl rfl)) (.inr (.inr rfl))

theorem disconnect_events (a : TableXPoint) (millis : Clock) (row col : UInt8) :
    ∃ es, Decomposes a (.disconnect row col) (a.disconnect millis row col).1 (a.disconnect millis row col).2.calls es := by
  unfold disconnect
  split
  · exact ⟨[], .nil⟩
  · rename_i hin
    obtain ⟨-, hr, hc⟩ := inside hin
    split
    · exact ⟨[], .nil⟩
    · rename_i hconn
      exact switchNode_events ⟨hr, hc, fun h => nomatch h⟩ (fun _ => by simpa using hconn) (fun _ => .inl rfl)
        (.inr (.inl rfl)) (.inr (.inr rfl))

theorem setLevel_events (a : TableXPoint) (millis : Clock) (row col : UInt8) (level : UInt16) :
    ∃ es, Decomposes a (.setLevel row col level) (a.setLevel millis row col level).1
      (a.setLevel millis row col level).2.calls es := by
  unfold setLevel
  dsimp only
  split
  · exact ⟨[], .nil⟩
  · rename_i hin
    obtain ⟨-, hr, hc⟩ := inside hin
    split
    · exact ⟨[], .nil⟩
    · rename_i hb
      have hallows : a.Allows row col (decide (level > 0)) := ⟨hr, hc, fun hon => by simpa [hon] using hb⟩
      cases ht : a.type with
      | latchingDualCoil =>
        dsimp only
        split
        · exact ⟨[], .nil⟩
        · rename_i hne
          -- On a latching matrix the switched node had the other bit.
          have hoff : decide (level > 0) = false → a.conn row col = true := fun hoff => by
            rw [hoff] at hne
            simpa using hne
          exact switchNode_events hallows hoff (fun h => nomatch ht.symm.trans h) (.inr (.inl rfl)) (.inr (.inr rfl))
      | nonLatching => exact ⟨_, .committed (.level ht hallows) rfl (.inl rfl) (.inr (.inr rfl))⟩

section ClearNode
variable {s : TableXPoint × List DriverCall} {now : UInt32} {i : Fin MAX_PULSES}

theorem clearNode_off (h : s.1.conn r c = false) : clearNode now r c s = s := by
  simp [clearNode, h]

theorem clearNode_nonLatching (hc : s.1.conn r c = true) (ht : s.1.type = .nonLatching) :
    clearNode now r c s = (s.1.setConn r c false, s.2 ++ s.1.drive [.setNodeHardware r c false]) := by
  simp [clearNode, hc, ht]

/-- The node has a slot: that slot is restarted. -/
theorem clearNode_own (hd : s.1.pulses.Distinct) (hc : s.1.conn r c = true) (ht : s.1.type = .latchingDualCoil)
    (hi : (s.1.pulses.get i).names r c = true) : clearNode now r c s =
      ((s.1.setConn r c false).setPulses (s.1.pulses.put i ⟨r, c, now, true⟩),
        s.2 ++ s.1.drive [.setNodeHardware r c false]) := by
  have hset : Vector.put (s.1.pulses.freed i) i ⟨r, c, now, true⟩ = Vector.put s.1.pulses i ⟨r, c, now, true⟩ :=
    Vector.put_put ..
  simp only [clearNode, hc, ht, hd.reclaim_own hi, hset]
  rfl

/-- The node has none: it takes the first free slot. -/
theorem clearNode_fresh (hc : s.1.conn r c = true) (ht : s.1.type = .latchingDualCoil)
    (hp : s.1.pulses.pending r c = false) (hi : s.1.pulses.firstFree = some i) : clearNode now r c s =
      ((s.1.setConn r c false).setPulses (s.1.pulses.put i ⟨r, c, now, true⟩),
        s.2 ++ s.1.drive [.setNodeHardware r c false]) := by
  simp only [clearNode, hc, ht, reclaim_fresh hp, hi]
  rfl

theorem clearNode_full (hc : s.1.conn r c = true) (ht : s.1.type = .latchingDualCoil)
    (hp : s.1.pulses.pending r c = false) (hfull : s.1.pulses.firstFree = none) :
    clearNode now r c s = (s.1.setConn r c false, s.2) := by
  simp only [clearNode, hc, ht, reclaim_fresh hp, hfull]
  rfl

end ClearNode

/-- A state of the sweep of `clearAll` over `a`, with the calls made so far. -/
def Sweeping (a : TableXPoint) (s : TableXPoint × List DriverCall) : Prop := ∃ es, Decomposes a .clearAll s.1 s.2 es

theorem clearNode_events {s : TableXPoint × List DriverCall} (ha : a.pulses.Distinct) (hr : r < a.rows) (hc : c < a.cols)
    (now : UInt32) (h : Sweeping a s) : Sweeping a (clearNode now r c s) := by
  obtain ⟨es, h⟩ := h
  have hdrive := drive_congr (h.drv fun _ hop => nomatch hop) [.setNodeHardware r c false]
  have hallows : s.1.Allows r c false := ⟨h.rows ▸ hr, h.cols ▸ hc, fun h => nomatch h⟩
  cases hconn : s.1.conn r c with
  | false =>
    rw [clearNode_off hconn]
    exact ⟨es, h⟩
  | true =>
    cases ht : s.1.type with
    | nonLatching =>
      rw [clearNode_nonLatching hconn ht, hdrive]
      exact ⟨_, h.snoc (.switch ht hallows) (.inl ⟨r, c, .inl rfl⟩)⟩
    | latchingDualCoil =>
      cases hp : s.1.pulses.pending r c with
      | true =>
        obtain ⟨i, hi⟩ := pending_iff.mp hp
        rw [clearNode_own (h.distinct ha) hconn ht hi, hdrive]
        exact ⟨_, h.snoc (.repulse ht hallows hconn hi) (.inl ⟨r, c, .inr (.inr (.inl rfl))⟩)⟩
      | false =>
        cases hfree : s.1.pulses.firstFree with
        | some i =>
          rw [clearNode_fresh hconn ht hp hfree, hdrive]
          exact ⟨_, h.snoc (.pulse ht hallows (fun _ => hconn) hp (firstFree_eq_some hfree)) (.inl ⟨r, c, .inr (.inl rfl)⟩)⟩
        | none =>
          rw [clearNode_full hconn ht hp hfree]
          have hskip := h.snoc (.skip ht hallows hconn hp (firstFree_eq_none.mp hfree))
            (.inl ⟨r, c, .inr (.inr (.inr rfl))⟩)
          rw [Event.calls, drive_nil, List.append_nil] at hskip
          exact ⟨_, hskip⟩

theorem clearAll_events (ha : a.pulses.Distinct) (millis : Clock) :
    ∃ es, Decomposes a .clearAll (a.clearAll millis).1 (a.clearAll millis).2.calls es := by
  unfold clearAll
  split
  · exact ⟨[], .nil⟩
  · have hrow : ∀ r ∈ below a.rows, ∀ s, Sweeping a s →
        Sweeping a
          ((below a.cols).foldl (fun s c => clearNode (if a.type = .latchingDualCoil then millis 0 else 0) r c s) s) :=
      fun r hr s hs => List.foldlRecOn _ _ hs fun s hs c hc => clearNode_events ha (mem_below.mp hr) (mem_below.mp hc) _ hs
    obtain ⟨es, h⟩ := List.foldlRecOn (below a.rows) _ (show Sweeping a (a, []) from ⟨[], .nil⟩)
      fun s hs r hr => hrow r hr s hs
    exact ⟨_, h.snoc .commit (.inr rfl)⟩

theorem clearAll_ret : (a.clearAll millis).2.ret = none := by
  unfold clearAll
  split <;> rfl

/-- Without rows there is nothing to clear. -/
theorem clearAll_no_rows (hr : a.rows = 0) : (a.clearAll millis).1 = a := by
  unfold clearAll
  rw [hr]
  split <;> rfl

theorem lockRows_events (a : TableXPoint) (rowA rowB : UInt8) :
    ∃ es, Decomposes a (.lockRows rowA rowB) (a.lockRows rowA rowB).1 (a.lockRows rowA rowB).2.calls es := by
  unfold lockRows
  split
  · exact ⟨[], .nil⟩
  · rename_i hin
    obtain ⟨-, hA, hB⟩ := inside hin
    exact ⟨_, .single (.lock hA hB) rfl drive_nil.symm⟩

theorem exclusiveInput_events (a : TableXPoint) (col : UInt8) :
    ∃ es, Decomposes a (.exclusiveInput col) (a.exclusiveInput col).1 (a.exclusiveInput col).2.calls es := by
  unfold exclusiveInput
  split
  · exact ⟨[], .nil⟩
  · rename_i hin
    exact ⟨_, .single (.exclude (inside_col hin).2) rfl drive_nil.symm⟩

/-- A state of the loop of `update` over `a`: the slots as they are, and the nodes released so far. -/
def Expiring (a : TableXPoint) (s : PulseTable × List (UInt8 × UInt8)) : Prop :=
  ∃ es, Decomposes a .update (a.setPulses s.1) (a.drive (s.2.map fun n => .releaseNode n.1 n.2)) es

theorem expireTurn_events {s : PulseTable × List (UInt8 × UInt8)} (ht : a.type = .latchingDualCoil) (now : UInt32)
    (i : Fin MAX_PULSES) (h : Expiring a s) : Expiring a (expireTurn now a.pdur s i) := by
  obtain ⟨es, hes⟩ := h
  unfold expireTurn
  split
  · exact ⟨es, hes⟩
  · rename_i hon
    have hon : (s.1.get i).on = true := by simpa only [Bool.not_eq_true', Bool.not_eq_false] using hon
    split
    · have hrelease := hes.snoc (.release (i := i) ht hon) (.inl ⟨_, _, rfl⟩)
      rw [Event.calls, ← drive_append] at hrelease
      exact ⟨_, by rw [List.map_append]; exact hrelease⟩
    · exact ⟨es, hes⟩

theorem update_events (a : TableXPoint) (millis : Clock) :
    ∃ es, Decomposes a .update (a.update millis).1 (a.update millis).2.calls es := by
  unfold update
  split
  · exact ⟨[], .nil⟩
  · rename_i ht
    have ht : a.type = .latchingDualCoil := Decidable.not_not.mp ht
    have h : Expiring a (a.pulses.expire (millis 0) a.pdur) :=
      List.foldlRecOn _ _ (show Expiring a (a.pulses, []) from ⟨[], by rw [List.map_nil, drive_nil]; exact .nil⟩)
        fun s hs i _ => expireTurn_events ht (millis 0) i hs
    generalize a.pulses.expire (millis 0) a.pdur = s at h
    obtain ⟨pulses, released⟩ := s
    obtain ⟨es, h⟩ := h
    cases released with
    | nil => exact ⟨es, h⟩
    | cons n ns =>
      refine ⟨es ++ [.commit], ?_⟩
      dsimp only
      rw [drive_append]
      exact h.snoc .commit (.inr rfl)

/-- Every operation is a sequence of events. -/
theorem step_events (ha : a.pulses.Distinct) (i : Op × Clock) :
    ∃ es, Decomposes a i.1 (a.step i).1 (a.step i).2.calls es := by
  obtain ⟨op, millis⟩ := i
  cases op with
  | setDriver drv => exact ⟨_, .single .attach rfl drive_nil.symm⟩
  | begin => exact ⟨_, .single .begin rfl rfl⟩
  | connect row col => exact connect_events a millis row col
  | disconnect row col => exact disconnect_events a millis row col
  | setLevel row col level => exact setLevel_events a millis row col level
  | clearAll => exact clearAll_events ha millis
  | lockRows rowA rowB => exact lockRows_events a rowA rowB
  | exclusiveInput col => exact exclusiveInput_events a col
  | update => exact update_events a millis

/-! ### What every operation keeps -/

theorem step_distinct (ha : a.pulses.Distinct) (i : Op × Clock) : (a.step i).1.pulses.Distinct :=
  let ⟨_, h⟩ := step_events ha i
  h.distinct ha

theorem step_type (ha : a.pulses.Distinct) (i : Op × Clock) : (a.step i).1.type = a.type :=
  let ⟨_, h⟩ := step_events ha i
  h.type

theorem step_pulses (ha : a.pulses.Distinct) (ht : a.type = .nonLatching) {i : Op × Clock} :
    (a.step i).1.pulses = a.pulses := by
  obtain ⟨_, h⟩ := step_events ha i
  exact (h.steps.inv (I := fun s => s.type = .nonLatching ∧ s.pulses = a.pulses)
    (fun _ _ _ hs _ hd => ⟨hd.type.trans hs.1, (hd.pulses hs.1).trans hs.2⟩) ⟨ht, rfl⟩).2

theorem step_rows (ha : a.pulses.Distinct) (i : Op × Clock) : (a.step i).1.rows = a.rows :=
  let ⟨_, h⟩ := step_events ha i
  h.rows

theorem step_cols (ha : a.pulses.Distinct) (i : Op × Clock) : (a.step i).1.cols = a.cols :=
  let ⟨_, h⟩ := step_events ha i
  h.cols

theorem step_valid (ha : a.pulses.Distinct) (i : Op × Clock) : (a.step i).1.valid = a.valid :=
  let ⟨_, h⟩ := step_events ha i
  h.valid

theorem step_pdur (ha : a.pulses.Distinct) (i : Op × Clock) : (a.step i).1.pdur = a.pdur :=
  let ⟨_, h⟩ := step_events ha i
  h.pdur

theorem step_drv {d : DriverRef} (ha : a.pulses.Distinct) (hdrv : a.drv = some d) {i : Op × Clock}
    (hi : i.1.KeepsDriver d) : (a.step i).1.drv = some d := by
  obtain ⟨es, h⟩ := step_events ha i
  refine h.steps.inv (I := fun s => s.drv = some d) (fun s e t hs he hdo => ?_) hdrv
  have hem := h.emits e he
  cases hdo with
  | @attach drv =>
    rw [emits_attach hem] at hi
    exact hi
  | _ => exact hs

end Crosspoint.TableXPoint
