import Crosspoint.Theorems.Sweep
import Crosspoint.Timed

/-! Where the pulses in flight come from. A pulse was started by the operation that drove its node last: `connect`,
    `disconnect` and `setLevel` read the clock when their commit has returned, `clearAll` before its first
    driver call. -/

namespace Crosspoint
open Loops PulseTable

namespace TableXPoint
variable {a : TableXPoint} {op : Op} {millis : Clock} {calls : List DriverCall} {j : Fin MAX_PULSES} {e : PulseEvent}
  {r c : UInt8} {on : Bool}

/-! ### One operation -/

/-- Where the pulse `e` comes from that slot `j` holds after the operation: the slot held it before and no call
    names its node, or the operation drove its node and started it. -/
inductive Origin (a : TableXPoint) (op : Op) (millis : Clock) (calls : List DriverCall) (j : Fin MAX_PULSES)
    (e : PulseEvent) : Prop
  | kept (h : a.pulses.get j = e) (hcalls : ∀ call ∈ calls, call.names e.r e.c = false)
  | fresh (hop : op ≠ .clearAll) (ht : e.t0 = millis calls.length) (on : Bool)
    (hcalls : calls = [.setNodeHardware e.r e.c on, .commitPhysicalUpdates])
  | swept (hop : op = .clearAll) (ht : e.t0 = millis 0) (ds : List DriverCall)
    (hcalls : calls = ds ++ [.commitPhysicalUpdates])
    (hds : ∀ call ∈ ds, ∃ r c, call = .setNodeHardware r c false) (hmem : .setNodeHardware e.r e.c false ∈ ds)

theorem Origin.idle : Origin a op millis [] j (a.pulses.get j) := .kept rfl fun _ h => absurd h List.not_mem_nil

theorem drive_attached (hdrv : a.drv.isSome = true) : a.drive calls = calls := if_pos hdrv

theorem switchNode_refused (ht : a.type = .latchingDualCoil) (h : a.pulses.alloc r c = none) :
    a.switchNode millis r c on = (a, ⟨some false, []⟩) := by
  simp [switchNode, ht, h]

theorem switchNode_taken (ht : a.type = .latchingDualCoil) (hdrv : a.drv.isSome = true) {slot : Fin MAX_PULSES}
    (h : a.pulses.alloc r c = some slot) : a.switchNode millis r c on =
      ((a.setConn r c on).setPulses (a.pulses.put slot ⟨r, c, millis 2, true⟩),
        ⟨some true, [.setNodeHardware r c on, .commitPhysicalUpdates]⟩) := by
  simp [switchNode, ht, h, drive_attached hdrv]

theorem switchNode_origin (ht : a.type = .latchingDualCoil) (hdrv : a.drv.isSome = true) (hop : op ≠ .clearAll)
    (hon : ((a.switchNode millis r c on).1.pulses.get j).on = true) :
    Origin a op millis (a.switchNode millis r c on).2.calls j ((a.switchNode millis r c on).1.pulses.get j) := by
  cases halloc : a.pulses.alloc r c with
  | none =>
    rw [switchNode_refused ht halloc]
    exact .idle
  | some slot =>
    obtain ⟨hpend, -⟩ := alloc_eq_some halloc
    rw [switchNode_taken ht hdrv halloc] at hon ⊢
    have hput := Vector.get_put (v := a.pulses) (i := slot) (j := j) (x := ⟨r, c, millis 2, true⟩)
    by_cases hslot : slot = j
    · rw [if_pos hslot] at hput
      change Origin a op millis _ j (Vector.get (a.pulses.put slot _) j)
      rw [hput]
      exact .fresh hop rfl on rfl
    · rw [if_neg hslot] at hput
      have hon : (a.pulses.get j).on = true := hput ▸ hon
      refine .kept hput.symm fun call hcall => ?_
      change call.names (Vector.get (a.pulses.put slot _) j).r (Vector.get (a.pulses.put slot _) j).c = false
      rw [hput]
      -- The node had no slot, so the pulse in slot `j` is another node's.
      have hother : ¬((a.pulses.get j).r = r ∧ (a.pulses.get j).c = c) := fun heq => by
        cases (pending_eq_false.mp hpend j).symm.trans (names_iff.mpr ⟨hon, heq⟩)
      simp only [List.mem_cons, List.not_mem_nil, or_false] at hcall
      rcases hcall with rfl | rfl
      · exact DriverCall.names_set hother
      · rfl

theorem connect_origin (ht : a.type = .latchingDualCoil) (hdrv : a.drv.isSome = true)
    (hon : ((a.connect millis r c).1.pulses.get j).on = true) :
    Origin a (.connect r c) millis (a.connect millis r c).2.calls j ((a.connect millis r c).1.pulses.get j) := by
  unfold connect at hon ⊢
  split
  · exact .idle
  · rename_i hin
    rw [if_neg hin] at hon
    split
    · exact .idle
    · rename_i hb
      rw [if_neg hb] at hon
      split
      · exact .idle
      · rename_i hc
        rw [if_neg hc] at hon
        exact switchNode_origin ht hdrv (fun h => by cases h) hon

theorem disconnect_origin (ht : a.type = .latchingDualCoil) (hdrv : a.drv.isSome = true)
    (hon : ((a.disconnect millis r c).1.pulses.get j).on = true) :
    Origin a (.disconnect r c) millis (a.disconnect millis r c).2.calls j ((a.disconnect millis r c).1.pulses.get j) := by
  unfold disconnect at hon ⊢
  split
  · exact .idle
  · rename_i hin
    rw [if_neg hin] at hon
    split
    · exact .idle
    · rename_i hc
      rw [if_neg hc] at hon
      exact switchNode_origin ht hdrv (fun h => by cases h) hon

theorem setLevel_origin (ht : a.type = .latchingDualCoil) (hdrv : a.drv.isSome = true) {level : UInt16}
    (hon : ((a.setLevel millis r c level).1.pulses.get j).on = true) :
    Origin a (.setLevel r c level) millis (a.setLevel millis r c level).2.calls j
      ((a.setLevel millis r c level).1.pulses.get j) := by
  unfold setLevel at hon ⊢
  dsimp only at hon ⊢
  rw [ht] at hon ⊢
  dsimp only at hon ⊢
  split
  · exact .idle
  · rename_i hin
    rw [if_neg hin] at hon
    split
    · exact .idle
    · rename_i hb
      rw [if_neg hb] at hon
      split
      · exact .idle
      · rename_i hc
        rw [if_neg hc] at hon
        exact switchNode_origin ht hdrv (fun h => by cases h) hon

theorem names_of_resets {l : List (UInt8 × UInt8)} {b : TableXPoint} {call : DriverCall} (h : call ∈ a.resets l b) :
    ∃ r c, call = .setNodeHardware r c false ∧ a.conn r c = true := by
  obtain ⟨n, hn, rfl⟩ := List.mem_map.mp h
  exact ⟨n.1, n.2, rfl, (List.mem_filter.mp (List.mem_filter.mp hn).1).2⟩

theorem clearAll_origin (ht : a.type = .latchingDualCoil) (hdrv : a.drv.isSome = true) (hd : a.pulses.Distinct)
    (hf : XPoint.Framed a) (hon : ((a.clearAll millis).1.pulses.get j).on = true) :
    Origin a .clearAll millis (a.clearAll millis).2.calls j ((a.clearAll millis).1.pulses.get j) := by
  cases hv : a.valid with
  | false =>
    have hnull : a.clearAll millis = (a, ⟨none, []⟩) := by simp [clearAll, hv]
    rw [hnull]
    exact .idle
  | true =>
    obtain ⟨hcleared, hrep⟩ := clearAll_ends hv ht hd millis
    obtain ⟨b, hb⟩ : ∃ b, (a.clearAll millis).1 = b := ⟨_, rfl⟩
    rw [hb] at hon hcleared hrep ⊢
    rw [hrep]
    dsimp only
    rw [drive_attached hdrv]
    have hself := names_self hon
    -- A node whose slot was restarted is one of those reset.
    have hswept (r c : UInt8) (hc : a.conn r c = true) (he : b.pulses.get j = ⟨r, c, millis 0, true⟩) :
        Origin a .clearAll millis (a.resets (nodes a.rows a.cols) b ++ [.commitPhysicalUpdates]) j (b.pulses.get j) := by
      have hin := hf.conn r c hc
      rw [he] at hself
      have hmem : DriverCall.setNodeHardware r c false ∈ a.resets (nodes a.rows a.cols) b := by
        refine List.mem_map.mpr ⟨(r, c), ?_, rfl⟩
        refine List.mem_filter.mpr ⟨List.mem_filter.mpr ⟨mem_nodes.mpr hin, hc⟩, ?_⟩
        exact pending_iff.mpr ⟨j, by rw [he]; exact hself⟩
      rw [he]
      refine .swept rfl rfl _ rfl (fun call hcall => ?_) hmem
      obtain ⟨r', c', rfl, -⟩ := names_of_resets hcall
      exact ⟨r', c', rfl⟩
    cases hold : (a.pulses.get j).on with
    | true =>
      have hown := hcleared.own j _ _ (names_self hold)
      by_cases hc : a.conn (a.pulses.get j).r (a.pulses.get j).c = true
      · rw [if_pos ⟨hc, mem_nodes.mpr (hf.conn _ _ hc)⟩] at hown
        exact hswept _ _ hc hown
      · rw [if_neg fun h => hc h.1] at hown
        refine .kept hown.symm fun call hcall => ?_
        rw [hown]
        rcases List.mem_append.mp hcall with hcall | hcall
        · obtain ⟨r', c', rfl, hc'⟩ := names_of_resets hcall
          refine DriverCall.names_set fun heq => hc ?_
          rw [heq.1, heq.2]
          exact hc'
        · obtain rfl := List.mem_singleton.mp hcall
          rfl
    | false =>
      obtain ⟨k, hk⟩ := List.mem_iff_getElem?.mp (mem_vacant.mpr hold)
      have htaken := hcleared.taken k j hk
      cases hn : (a.others (nodes a.rows a.cols))[k]? with
      | none =>
        rw [hn] at htaken
        rw [htaken] at hon
        cases hold.symm.trans hon
      | some n =>
        rw [hn] at htaken
        have hmem := List.mem_filter.mp (List.mem_of_getElem? hn)
        exact hswept n.1 n.2 (List.mem_filter.mp hmem.1).2 htaken

theorem update_eq (ht : a.type = .latchingDualCoil) {pulses : PulseTable} {released : List (UInt8 × UInt8)}
    (h : a.pulses.expire (millis 0) a.pdur = (pulses, released)) : a.update millis =
      (a.setPulses pulses, ⟨none, a.drive (released.map (fun n => .releaseNode n.1 n.2) ++
        if released.isEmpty then [] else [.commitPhysicalUpdates])⟩) := by
  simp only [update, h, ht, ne_eq, not_true_eq_false, ↓reduceIte]

theorem update_pulses (ht : a.type = .latchingDualCoil) :
    (a.update millis).1.pulses = (a.pulses.expire (millis 0) a.pdur).1 := by
  obtain ⟨pulses, released, h⟩ : ∃ pulses released, a.pulses.expire (millis 0) a.pdur = (pulses, released) :=
    ⟨_, _, Prod.mk.eta.symm⟩
  rw [update_eq ht h, h, setPulses]

theorem update_calls (ht : a.type = .latchingDualCoil) (hdrv : a.drv.isSome = true) : (a.update millis).2.calls =
    (a.pulses.expire (millis 0) a.pdur).2.map (fun n => .releaseNode n.1 n.2) ++
      if (a.pulses.expire (millis 0) a.pdur).2.isEmpty then [] else [.commitPhysicalUpdates] := by
  obtain ⟨pulses, released, h⟩ : ∃ pulses released, a.pulses.expire (millis 0) a.pdur = (pulses, released) :=
    ⟨_, _, Prod.mk.eta.symm⟩
  rw [update_eq ht h, h, drive_attached hdrv]

theorem update_origin (ht : a.type = .latchingDualCoil) (hdrv : a.drv.isSome = true) (hd : a.pulses.Distinct)
    (hon : ((a.update millis).1.pulses.get j).on = true) :
    Origin a .update millis (a.update millis).2.calls j ((a.update millis).1.pulses.get j) := by
  rw [update_pulses ht, expire_get] at hon ⊢
  rw [update_calls ht hdrv]
  obtain ⟨hold, hdue⟩ := expired_on.mp hon
  have hsame : expired (millis 0) a.pdur (a.pulses.get j) = a.pulses.get j := expired_of_not fun h => by
    cases hdue.symm.trans h.2
  rw [hsame]
  refine .kept rfl fun call hcall => ?_
  rcases List.mem_append.mp hcall with hcall | hcall
  · obtain ⟨n, hn, rfl⟩ := List.mem_map.mp hcall
    rw [expire_released] at hn
    obtain ⟨i, hi, rfl⟩ := List.mem_map.mp hn
    obtain ⟨hion, hidue⟩ := Bool.and_eq_true_iff.mp (List.mem_filter.mp hi).2
    -- Slot `i` is due and slot `j` is not, so they hold different nodes.
    refine DriverCall.names_release fun heq => ?_
    have hij : i = j := hd i j _ _ (names_self hion) (names_iff.mpr ⟨hold, heq⟩)
    rw [hij, hdue] at hidue
    cases hidue
  · split at hcall
    · cases hcall
    · obtain rfl := List.mem_singleton.mp hcall
      rfl

theorem step_origin (ht : a.type = .latchingDualCoil) (hdrv : a.drv.isSome = true) (hd : a.pulses.Distinct)
    (hf : XPoint.Framed a) (hon : ((a.step (op, millis)).1.pulses.get j).on = true) :
    Origin a op millis (a.step (op, millis)).2.calls j ((a.step (op, millis)).1.pulses.get j) := by
  cases op with
  | setDriver drv => exact .idle
  | begin =>
    refine .kept rfl fun call hcall => ?_
    change call ∈ a.drive [.begin] at hcall
    rw [drive_attached hdrv] at hcall
    obtain rfl := List.mem_singleton.mp hcall
    rfl
  | connect row col => exact connect_origin ht hdrv hon
  | disconnect row col => exact disconnect_origin ht hdrv hon
  | setLevel row col level => exact setLevel_origin ht hdrv hon
  | clearAll => exact clearAll_origin ht hdrv hd hf hon
  | lockRows rowA rowB =>
    change Origin a _ millis (a.lockRows rowA rowB).2.calls j ((a.lockRows rowA rowB).1.pulses.get j)
    unfold lockRows
    split <;> exact .idle
  | exclusiveInput col =>
    change Origin a _ millis (a.exclusiveInput col).2.calls j ((a.exclusiveInput col).1.pulses.get j)
    unfold exclusiveInput
    split <;> exact .idle
  | update => exact update_origin ht hdrv hd hon

end TableXPoint

end Crosspoint
