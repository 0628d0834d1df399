import Crosspoint.Theorems.Bench
import Mathlib.Data.List.Nodup

/-! Two pins for each node of a latching matrix. A coil is driven only while a slot of the pulse table names its node, and
    then the one that its bit asks for, so the slots bound the coils and no node has both. -/

namespace Crosspoint
open Bench PulseTable TableXPoint Traces

namespace DualCoilDriver
variable {g : DualCoilDriver} {a b : TableXPoint} {k : Board} {e : Event} {r c : UInt8} {on : Bool} {i : Fin MAX_PULSES}
  {t : UInt32} {q : Int}

/-- The coils of the pulses in flight: SET if the node is connected, RESET if it is not. -/
def lit (a : TableXPoint) (q : Int) : Prop := ∃ r c, a.pulses.pending r c = true ∧ coil r c (a.conn r c) = q

theorem begin_dims : ∀ call ∈ g.begin, call.Dims := by
  intro call hcall
  obtain ⟨r, -, hcall⟩ := List.mem_flatMap.mp hcall
  obtain ⟨c, -, hcall⟩ := List.mem_flatMap.mp hcall
  simp only [List.mem_cons, List.not_mem_nil, or_false] at hcall
  rcases hcall with rfl | rfl | rfl | rfl
  · trivial
  · rfl
  · trivial
  · rfl

/-- Node `(r, c)` changes to `on` and gets slot `i`. -/
def pulsed (a : TableXPoint) (r c : UInt8) (on : Bool) (i : Fin MAX_PULSES) (t : UInt32) : TableXPoint :=
  (a.setConn r c on).setPulses (a.pulses.put i ⟨r, c, t, true⟩)

section Pulse
variable (hi : (a.pulses.get i).on = false ∨ (a.pulses.get i).names r c = true)
include hi

theorem lit_own : lit (pulsed a r c on i t) (coil r c on) :=
  ⟨r, c, (pending_put (e := ⟨r, c, t, true⟩) hi rfl).mpr (.inl ⟨rfl, rfl⟩), congrArg (coil r c) (setEntry_self ..)⟩

/-- The coils of the other nodes stay as they are. -/
theorem lit_other (hq : lit a q) (hne : a.pulses.pending r c = true → q ≠ coil r c (a.conn r c)) :
    lit (pulsed a r c on i t) q := by
  obtain ⟨r', c', hpend, hcoil⟩ := hq
  have hother : ¬(r' = r ∧ c' = c) := fun heq => by
    rw [heq.1, heq.2] at hpend hcoil
    exact hne hpend hcoil.symm
  exact ⟨r', c', (pending_put (e := ⟨r, c, t, true⟩) hi rfl).mpr (.inr hpend),
    (congrArg (coil r' c') (setEntry_ne hother)).trans hcoil⟩

/-- The coil that is not wanted is off before the other is on, where it may have been on. -/
theorem set_lights (hk : Within lit a k) (hp : a.pulses.pending r c = true → a.conn r c = true ∧ on = false) :
    Throughout Board.take (fun k => Within lit a k ∨ Within lit (pulsed a r c on i t) k) k (setNodeHardware r c on) ∧
      Within lit (pulsed a r c on i t) (k.replay (setNodeHardware r c on)) := by
  cases on with
  | true =>
    have hset : Within lit (pulsed a r c true i t) (k.take (.digitalWrite (coil r c true) true)) := fun q hq => by
      rw [Board.level_write] at hq
      split at hq
      · rename_i heq
        exact heq ▸ lit_own hi
      · exact lit_other hi (hk q hq) fun hpend => absurd (hp hpend).2 (by decide)
    have hreset : Within lit (pulsed a r c true i t)
        ((k.take (.digitalWrite (coil r c true) true)).take (.digitalWrite (coil r c false) false)) := hset.dim rfl
    exact ⟨throughout_cons.mpr ⟨.inl hk, throughout_cons.mpr ⟨.inr hset, throughout_nil.mpr (.inr hreset)⟩⟩, hreset⟩
  | false =>
    have hset : Within lit (pulsed a r c false i t) (k.take (.digitalWrite (coil r c true) false)) := fun q hq => by
      rw [Board.level_write] at hq
      split at hq
      · cases hq
      · rename_i hne
        refine lit_other hi (hk q hq) fun hpend => ?_
        rw [(hp hpend).1]
        exact hne
    have hreset : Within lit (pulsed a r c false i t)
        ((k.take (.digitalWrite (coil r c true) false)).take (.digitalWrite (coil r c false) true)) := fun q hq => by
      rw [Board.level_write] at hq
      split at hq
      · rename_i heq
        exact heq ▸ lit_own hi
      · exact hset q hq
    exact ⟨throughout_cons.mpr ⟨.inl hk, throughout_cons.mpr ⟨.inr hset, throughout_nil.mpr (.inr hreset)⟩⟩, hreset⟩

end Pulse

theorem release_lights (hd : a.pulses.Distinct) (hi : (a.pulses.get i).on = true) (hk : Within lit a k) :
    Throughout Board.take (fun k => Within lit a k ∨ Within lit (a.setPulses (a.pulses.freed i)) k) k
        (releaseNode (a.pulses.get i).r (a.pulses.get i).c) ∧
      Within lit (a.setPulses (a.pulses.freed i)) (k.replay (releaseNode (a.pulses.get i).r (a.pulses.get i).c)) := by
  let r := (a.pulses.get i).r
  let c := (a.pulses.get i).c
  have hset : Within lit a (k.take (.digitalWrite (coil r c true) false)) := hk.dim rfl
  have hreset : Within lit (a.setPulses (a.pulses.freed i))
      ((k.take (.digitalWrite (coil r c true) false)).take (.digitalWrite (coil r c false) false)) := fun q hq => by
    rw [Board.level_write] at hq
    split at hq
    · cases hq
    · rename_i hreset
      have hq' := hq
      rw [Board.level_write] at hq'
      split at hq'
      · cases hq'
      · rename_i hset'
        obtain ⟨r', c', hpend, hcoil⟩ := hset q hq
        refine ⟨r', c', (hd.pending_freed hi).mpr ⟨fun heq => ?_, hpend⟩, hcoil⟩
        rw [heq.1, heq.2] at hcoil
        cases hconn : a.conn (a.pulses.get i).r (a.pulses.get i).c with
        | true => exact hset' (hcoil.symm.trans (congrArg _ hconn))
        | false => exact hreset (hcoil.symm.trans (congrArg _ hconn))
  exact ⟨throughout_cons.mpr ⟨.inl hk, throughout_cons.mpr ⟨.inl hset, throughout_nil.mpr (.inr hreset)⟩⟩, hreset⟩

theorem lights (g : DualCoilDriver) : Lights g.handle lit .latchingDualCoil := by
  intro a e b k ht hd hdo hk
  have hquiet : ∀ b : TableXPoint, Within lit b k →
      Throughout Board.take (fun k => Within lit a k ∨ Within lit b k) k [] ∧ Within lit b (k.replay []) := fun b hb =>
    ⟨throughout_nil.mpr (.inl hk), hb⟩
  cases hdo with
  | pulse _ _ hoff hp hi =>
    rw [Event.calls, List.flatMap_singleton]
    exact set_lights (.inl hi) hk fun hpend => absurd hpend (Bool.eq_false_iff.mp hp)
  | repulse _ _ hc hi =>
    rw [Event.calls, List.flatMap_singleton]
    exact set_lights (.inr hi) hk fun _ => ⟨hc, rfl⟩
  | @skip r c _ _ _ hp =>
    -- The node that is passed over has no pulse in flight.
    refine hquiet _ fun q hq => ?_
    obtain ⟨r', c', hpend, hcoil⟩ := hk q hq
    have hother : ¬(r' = r ∧ c' = c) := fun heq => by
      rw [heq.1, heq.2, hp] at hpend
      cases hpend
    exact ⟨r', c', hpend, (congrArg (coil r' c') (setEntry_ne hother)).trans hcoil⟩
  | release _ hi =>
    rw [Event.calls, List.flatMap_singleton]
    exact release_lights hd hi hk
  | begin =>
    rw [Event.calls, List.flatMap_singleton]
    have hall := hk.dims (begin_dims (g := g))
    exact ⟨hall.imp fun _ => .inl, hall.last⟩
  | commit | lock | exclude | attach => exact hquiet _ hk
  | switch ht' | level ht' => cases ht'.symm.trans ht

/-! ### The pins of a run -/

variable {rows cols : UInt8} {pdur : UInt16} {d : DriverRef} {x : XPoint} {ops : List (Op × Clock)}

theorem coil_eq (hrows : rows ≤ 63) (hcols : cols ≤ 2) (hr : r < rows) (hc : c < cols) (set : Bool) :
    coil r c set = (if set then 2 else 3) + (r.toNat * 2 + c.toNat) * 2 := by
  rw [UInt8.lt_iff_toNat_lt] at hr hc
  rw [UInt8.le_iff_toNat_le] at hrows hcols
  simp only [UInt8.reduceToNat] at hrows hcols
  cases set with
  | true =>
    have hpin : (setPin r c).toNat = 2 + (r.toNat * 2 + c.toNat) * 2 := by
      rw [setPin, UInt8.toNat_ofNat']
      exact Nat.mod_eq_of_lt (by omega)
    rw [coil, if_pos rfl, hpin]
    rfl
  | false =>
    have hpin : (resetPin r c).toNat = 3 + (r.toNat * 2 + c.toNat) * 2 := by
      rw [resetPin, UInt8.toNat_ofNat']
      exact Nat.mod_eq_of_lt (by omega)
    rw [coil, if_neg Bool.false_ne_true, hpin]
    rfl

/-- Two columns, and no more rows than 8 bits have pins for: all coils have pins of their own. -/
theorem coil_inj {r' c' : UInt8} {set set' : Bool} (hrows : rows ≤ 63) (hcols : cols ≤ 2) (hr : r < rows) (hc : c < cols)
    (hr' : r' < rows) (hc' : c' < cols) (h : coil r c set = coil r' c' set') : r = r' ∧ c = c' ∧ set = set' := by
  rw [coil_eq hrows hcols hr hc, coil_eq hrows hcols hr' hc'] at h
  rw [UInt8.lt_iff_toNat_lt] at hc hc'
  rw [UInt8.le_iff_toNat_le] at hcols
  simp only [UInt8.reduceToNat] at hcols
  rw [← UInt8.toNat_inj, ← UInt8.toNat_inj]
  -- SET pins are even, RESET pins odd.
  have hset : set = set' := by
    cases set <;> cases set' <;> first | rfl | (simp only [if_true, Bool.false_eq_true, if_false] at h; omega)
  subst hset
  have h := Int.add_left_cancel h
  exact ⟨by omega, by omega, rfl⟩

/-- What a coil says that is at a high level while the tables light no more. -/
theorem coil_lit (hrows : a.rows ≤ 63) (hcols : a.cols ≤ 2) (hr : a.InRange) (hk : Within lit a k)
    (hin : r < a.rows ∧ c < a.cols)
    {set : Bool} (h : k.level (coil r c set) = true) : a.pulses.pending r c = true ∧ a.conn r c = set := by
  obtain ⟨r', c', hpend, hcoil⟩ := hk _ h
  have hin' := hr r' c' (occupied_iff.mpr (.inr hpend))
  obtain ⟨rfl, rfl, hset⟩ := coil_inj hrows hcols hin'.1 hin'.2 hin.1 hin.2 hcoil
  exact ⟨hpend, hset⟩

/-- There are no more pins at a high level than slots. -/
theorem lit_le (hk : Within lit a k) {pins : List Int} (hnodup : pins.Nodup) (hpins : ∀ q ∈ pins, k.level q = true) :
    pins.length ≤ MAX_PULSES := by
  let slotPin : Fin MAX_PULSES → Int := fun i =>
    coil (a.pulses.get i).r (a.pulses.get i).c (a.conn (a.pulses.get i).r (a.pulses.get i).c)
  have hsub : pins ⊆ (List.finRange MAX_PULSES).map slotPin := fun q hq => by
    obtain ⟨r, c, hpend, rfl⟩ := hk q (hpins q hq)
    obtain ⟨i, hi⟩ := pending_iff.mp hpend
    obtain ⟨-, rfl, rfl⟩ := names_iff.mp hi
    exact List.mem_map.mpr ⟨i, List.mem_finRange i, rfl⟩
  have hle := (hnodup.subperm hsub).length_le
  rwa [List.length_map, List.length_finRange] at hle

/-- At every instant of every run no node has both its coils on, and no more coils are on than there are slots. -/
theorem coils_exclusive (hrows : rows ≤ 63) (hcols : cols ≤ 2) (h : XPoint.Attached rows cols .latchingDualCoil pdur d x)
    (hops : ∀ i ∈ ops, i.1.KeepsDriver d) : (∃ s log, Bench.run g.handle ⟨x, .reset⟩ ops = some (s, log)) ∧
      Bench.Always g.handle (fun _ k =>
        (∀ r c, r < rows → c < cols → ¬(k.high (coil r c true) = true ∧ k.high (coil r c false) = true)) ∧
        ∀ pins : List Int, pins.Nodup → (∀ q ∈ pins, k.high q = true) → pins.length ≤ MAX_PULSES) ⟨x, .reset⟩ ops := by
  obtain ⟨hrun, halways⟩ := always_shown (lights g) h hops (.of_forall fun _ _ _ (ho : False) => ho.elim)
  refine ⟨hrun, halways.imp fun s i hshown t rep ht => (hshown t rep ht).imp fun k hk => ?_⟩
  obtain ⟨hrows', hcols', a, ha, hwithin⟩ := hk
  have har : a.rows = rows := ha.rows.trans hrows'
  have hac : a.cols = cols := ha.cols.trans hcols'
  refine ⟨fun r c hr hc hboth => ?_,
    fun pins hnodup hpins => lit_le hwithin hnodup fun q hq => Board.level_of_high (hpins q hq)⟩
  have hcoil : ∀ set, k.high (coil r c set) = true → a.conn r c = set := fun set hhigh =>
    (coil_lit (by rwa [har]) (by rwa [hac]) ha.inRange hwithin (by rw [har, hac]; exact ⟨hr, hc⟩)
    (Board.level_of_high hhigh)).2
  exact Bool.false_ne_true ((hcoil false hboth.2).symm.trans (hcoil true hboth.1))

/-- The sketch's matrix: a SET pulse that `clearAll` cuts short. -/
theorem coils_exclusive_two_by_two : ∃ x, XPoint.Attached 2 2 .latchingDualCoil 20 0 x ∧
    let g : DualCoilDriver := ⟨2, 2⟩
    Bench.Always g.handle (fun _ k =>
      (∀ r c, r < 2 → c < 2 → ¬(k.high (coil r c true) = true ∧ k.high (coil r c false) = true)) ∧
      ∀ pins : List Int, pins.Nodup → (∀ q ∈ pins, k.high q = true) → pins.length ≤ MAX_PULSES) ⟨x, .reset⟩
      [(.begin, fun _ => 0), (.connect 0 0, fun _ => 0), (.clearAll, fun _ => 5), (.update, fun _ => 30)] := by
  obtain ⟨x, hx⟩ := XPoint.exists_attached 2 2 .latchingDualCoil 20 0
  exact ⟨x, hx, (coils_exclusive (by decide) (by decide) hx (by simp [Op.KeepsDriver])).2⟩

/-- At every instant of a run whose rules are set when their rows and columns obey them: no column has coils of two
    locked rows on, and no exclusive column coils of two rows. -/
theorem coils_apart (hrows : rows ≤ 63) (hcols : cols ≤ 2) (h : XPoint.Attached rows cols .latchingDualCoil pdur d x)
    (hops : ∀ i ∈ ops, i.1.KeepsDriver d) (hobeys : Machine.Along XPoint.step (fun x i => x.tables.Obeys i) x ops) :
    (∃ s log, Bench.run g.handle ⟨x, .reset⟩ ops = some (s, log)) ∧
      Bench.Always g.handle (fun b k => b.Apart fun r c => k.high (coil r c true) || k.high (coil r c false))
        ⟨x, .reset⟩ ops := by
  obtain ⟨hrun, halways⟩ := always_shown (lights g) h hops (hobeys.imp fun _ _ hi (_ : True) => hi)
  refine ⟨hrun, halways.imp fun s i hshown t rep ht => (hshown t rep ht).imp fun k hk => ?_⟩
  obtain ⟨hrows', hcols', a, ha, hwithin⟩ := hk
  refine ha.apart fun r c hr hc hon => ?_
  obtain ⟨set, hhigh⟩ : ∃ set, k.high (coil r c set) = true := by
    rcases Bool.or_eq_true_iff.mp hon with hhigh | hhigh
    · exact ⟨true, hhigh⟩
    · exact ⟨false, hhigh⟩
  have hin : r < a.rows ∧ c < a.cols := by
    rw [ha.rows, ha.cols]
    exact ⟨hr, hc⟩
  exact occupied_iff.mpr (.inr (coil_lit (by rwa [ha.rows, hrows']) (by rwa [ha.cols, hcols']) ha.inRange hwithin hin
    (Board.level_of_high hhigh)).1)

theorem coils_apart_two_by_two : ∃ x, XPoint.Attached 2 2 .latchingDualCoil 20 0 x ∧
    let g : DualCoilDriver := ⟨2, 2⟩
    Bench.Always g.handle (fun b k => b.Apart fun r c => k.high (coil r c true) || k.high (coil r c false)) ⟨x, .reset⟩
      [(.lockRows 0 1, fun _ => 0), (.begin, fun _ => 0), (.connect 0 0, fun _ => 0), (.connect 1 0, fun _ => 1)] := by
  obtain ⟨x, hx⟩ := XPoint.exists_attached 2 2 .latchingDualCoil 20 0
  refine ⟨x, hx, (coils_apart (by decide) (by decide) hx (by simp [Op.KeepsDriver]) ?_).2⟩
  exact ⟨hx.obeys _, fun _ _ => ⟨trivial, fun _ _ => ⟨trivial, fun _ _ => ⟨trivial, fun _ _ => trivial⟩⟩⟩⟩

/-- The board shows the pulses in flight, and drives the coils of every node. -/
structure Shows (rows cols : UInt8) (a : TableXPoint) (k : Board) : Prop where
  type : a.type = .latchingDualCoil
  rows_eq : a.rows = rows
  cols_eq : a.cols = cols
  inRange : a.InRange
  within : Within lit a k
  lights : ∀ r c, a.pulses.pending r c = true → k.level (coil r c (a.conn r c)) = true
  outputs : ∀ r c set, r < rows → c < cols → k.output (coil r c set) = true

theorem Shows.quiet (h : Shows rows cols a k) (ht : b.type = a.type) (hr : b.rows = a.rows) (hc : b.cols = a.cols)
    (hin : b.InRange) (hk : Within lit b k)
    (hl : ∀ r c, b.pulses.pending r c = true → k.level (coil r c (b.conn r c)) = true) :
    Shows rows cols b k :=
  ⟨ht.trans h.type, hr.trans h.rows_eq, hc.trans h.cols_eq, hin, hk, hl, h.outputs⟩

theorem level_other {calls : List PinCall} (h : ∀ call ∈ calls, call.pin ≠ q) : (k.replay calls).level q = k.level q := by
  refine List.foldlRecOn (motive := fun k' => k'.level q = k.level q) calls Board.take rfl fun k' hk call hcall => ?_
  cases call with
  | pinMode p => exact hk
  | digitalWrite p v => exact (Board.level_write.trans (if_neg (Ne.symm (h _ hcall)))).trans hk

/-- A call that sets the coils of one node leaves those of the others. -/
theorem level_node {r' c' : UInt8} {set : Bool} {calls : List PinCall} (hrows : rows ≤ 63) (hcols : cols ≤ 2)
    (hcalls : ∀ call ∈ calls, ∃ v, call.pin = coil r c v) (hin : r < rows ∧ c < cols) (hin' : r' < rows ∧ c' < cols)
    (hne : ¬(r' = r ∧ c' = c)) : (k.replay calls).level (coil r' c' set) = k.level (coil r' c' set) :=
  level_other fun call hcall heq => by
    obtain ⟨v, hv⟩ := hcalls call hcall
    obtain ⟨hr, hc, -⟩ := coil_inj hrows hcols hin.1 hin.2 hin'.1 hin'.2 (hv.symm.trans heq)
    exact hne ⟨hr.symm, hc.symm⟩

theorem set_pins : ∀ call ∈ setNodeHardware r c on, ∃ v, call.pin = coil r c v := by
  intro call hcall
  cases on <;> simp only [setNodeHardware, if_true, Bool.false_eq_true, if_false, List.mem_cons, List.not_mem_nil,
    or_false] at hcall <;> rcases hcall with rfl | rfl
  · exact ⟨true, rfl⟩
  · exact ⟨false, rfl⟩
  · exact ⟨true, rfl⟩
  · exact ⟨false, rfl⟩

theorem release_pins : ∀ call ∈ releaseNode r c, ∃ v, call.pin = coil r c v := by
  intro call hcall
  simp only [releaseNode, List.mem_cons, List.not_mem_nil, or_false] at hcall
  rcases hcall with rfl | rfl
  · exact ⟨true, rfl⟩
  · exact ⟨false, rfl⟩

theorem set_level (hne : coil r c true ≠ coil r c false) :
    (k.replay (setNodeHardware r c on)).level (coil r c on) = true := by
  cases on with
  | true =>
    change ((k.take (.digitalWrite (coil r c true) true)).take (.digitalWrite (coil r c false) false)).level
      (coil r c true) = true
    rw [Board.level_write, if_neg hne, Board.level_write, if_pos rfl]
  | false =>
    change ((k.take (.digitalWrite (coil r c true) false)).take (.digitalWrite (coil r c false) true)).level
      (coil r c false) = true
    rw [Board.level_write, if_pos rfl]

theorem Shows.outputs_replay {calls : List PinCall} (h : Shows rows cols a k) :
    ∀ r c set, r < rows → c < cols → (k.replay calls).output (coil r c set) = true := fun r c set hr hc =>
  Board.output_replay.mpr (.inl (h.outputs r c set hr hc))

theorem Shows.set (hrows : rows ≤ 63) (hcols : cols ≤ 2) (h : Shows rows cols a k) (hin : r < rows ∧ c < cols)
    (hi : (a.pulses.get i).on = false ∨ (a.pulses.get i).names r c = true)
    (hp : a.pulses.pending r c = true → a.conn r c = true ∧ on = false) (hb : (pulsed a r c on i t).InRange) :
    Shows rows cols (pulsed a r c on i t) (k.replay (setNodeHardware r c on)) := by
  refine ⟨h.type, h.rows_eq, h.cols_eq, hb, (set_lights hi h.within hp).2, fun r' c' hpend => ?_, h.outputs_replay⟩
  by_cases heq : r' = r ∧ c' = c
  · obtain ⟨rfl, rfl⟩ := heq
    have hne : coil r' c' true ≠ coil r' c' false := fun hsame =>
      absurd (coil_inj hrows hcols hin.1 hin.2 hin.1 hin.2 hsame).2.2 (by decide)
    rw [show (pulsed a r' c' on i t).conn r' c' = on from setEntry_self ..]
    exact set_level hne
  · have hpend' : a.pulses.pending r' c' = true :=
      ((pending_put (e := ⟨r, c, t, true⟩) hi rfl).mp hpend).resolve_left heq
    have hin' := h.inRange r' c' (occupied_iff.mpr (.inr hpend'))
    rw [h.rows_eq, h.cols_eq] at hin'
    rw [level_node hrows hcols set_pins hin hin' heq,
      show (pulsed a r c on i t).conn r' c' = a.conn r' c' from setEntry_ne heq]
    exact h.lights r' c' hpend'

theorem Shows.event (hrows : rows ≤ 63) (hcols : cols ≤ 2) (h : Shows rows cols a k) (hd : a.pulses.Distinct)
    (he : e ≠ .begin) (hdo : Does a e b) : Shows rows cols b (k.replay (e.calls.flatMap g.handle)) := by
  have hb : b.InRange := hdo.inRange h.inRange
  have hk := (DualCoilDriver.lights g a e b k h.type hd hdo h.within).2
  cases hdo with
  | pulse _ hall hoff hp hi =>
    rw [Event.calls, List.flatMap_singleton]
    exact h.set hrows hcols ⟨h.rows_eq ▸ hall.row, h.cols_eq ▸ hall.col⟩ (.inl hi)
      (fun hpend => absurd hpend (Bool.eq_false_iff.mp hp)) hb
  | repulse _ hall hc hi =>
    rw [Event.calls, List.flatMap_singleton]
    exact h.set hrows hcols ⟨h.rows_eq ▸ hall.row, h.cols_eq ▸ hall.col⟩ (.inr hi) (fun _ => ⟨hc, rfl⟩) hb
  | @skip r c _ _ _ hp =>
    refine h.quiet rfl rfl rfl hb hk fun r' c' hpend => ?_
    have hother : ¬(r' = r ∧ c' = c) := fun heq => by
      rw [heq.1, heq.2] at hpend
      exact absurd hpend (Bool.eq_false_iff.mp hp)
    rw [show (a.setConn r c false).conn r' c' = a.conn r' c' from setEntry_ne hother]
    exact h.lights r' c' hpend
  | @release i _ hi =>
    rw [Event.calls, List.flatMap_singleton] at hk ⊢
    refine ⟨h.type, h.rows_eq, h.cols_eq, hb, hk, fun r' c' hpend => ?_, h.outputs_replay⟩
    obtain ⟨hother, hpend'⟩ := (hd.pending_freed hi).mp hpend
    have hin := h.inRange _ _ (occupied_iff.mpr (.inr (pending_iff.mpr ⟨i, names_self hi⟩)))
    have hin' := h.inRange r' c' (occupied_iff.mpr (.inr hpend'))
    rw [h.rows_eq, h.cols_eq] at hin hin'
    exact (level_node hrows hcols release_pins hin hin' hother).trans (h.lights r' c' hpend')
  | begin => exact absurd rfl he
  | commit | lock | exclude | attach => exact h.quiet rfl rfl rfl hb h.within h.lights
  | switch ht | level ht => cases ht.symm.trans h.type

/-- `begin` turns all coils off; if no pulse is in flight, they are. -/
theorem Shows.begun (h : Shows rows cols a k) (hidle : ∀ r c, a.pulses.pending r c = false) :
    Shows rows cols a (k.replay g.begin) where
  type := h.type
  rows_eq := h.rows_eq
  cols_eq := h.cols_eq
  inRange := h.inRange
  within := (h.within.dims begin_dims).last
  lights r c hpend := by
    rw [hidle] at hpend
    cases hpend
  outputs := h.outputs_replay

theorem begin_outputs (hr : r < g.rows) (hc : c < g.cols) (set : Bool) : .pinMode (coil r c set) ∈ g.begin := by
  refine List.mem_flatMap.mpr ⟨r, Loops.mem_below.mpr hr, List.mem_flatMap.mpr ⟨c, Loops.mem_below.mpr hc, ?_⟩⟩
  cases set <;> simp

/-- After every run that begins the driver first, and later only while no pulse is in flight: a coil is on exactly if the
    pulse of its node is in flight and the bit of the node asks for it. -/
theorem coils_follow (hrows : rows ≤ 63) (hcols : cols ≤ 2) (h : XPoint.Attached rows cols .latchingDualCoil pdur d x)
    (hgrows : g.rows = rows) (hgcols : g.cols = cols) (hops : ∀ i ∈ ops, i.1.KeepsDriver d) (millis : Clock)
    (hbegin : Machine.Along XPoint.step (fun x i => i.1 = .begin → ∀ r c, x.pulses.pending r c = false) x ops) :
    ∃ s log, Bench.run g.handle ⟨x, .reset⟩ ((.begin, millis) :: ops) = some (s, log) ∧
      ∀ r c set, r < rows → c < cols → (s.board.high (coil r c set) = true ↔
        s.matrix.pulses.pending r c = true ∧ s.matrix.tables.conn r c = set) := by
  obtain ⟨hwf, hd, valid, ht⟩ := h.spec
  have hdrv : x.drv = some d := (congrArg TableXPoint.drv ht :)
  have hblank : x.tables.Blank := ht ▸ blank_init.setDriver _
  have hidle : ∀ r c, x.tables.pulses.pending r c = false := fun r c => by
    rw [hblank.pulses, pending_init]
  have hfirst : Bench.step g.handle ⟨x, .reset⟩ (.begin, millis) =
      some (⟨x, Board.reset.replay g.begin⟩, ⟨none, [.begin]⟩) := by
    rw [Bench.step, XPoint.step_begin hdrv]
    change some (Bench.mk x (Board.reset.replay (g.begin ++ [])), _) = _
    rw [List.append_nil]
  have hshows : Shows rows cols x.tables (Board.reset.replay g.begin) := by
    refine ⟨by rw [ht]; rfl, by rw [ht]; rfl, by rw [ht]; rfl, hblank.inRange, ?_, fun r c hpend => ?_,
      fun r c set hr hc => ?_⟩
    · exact (Within.dims (fun _ hq => absurd hq Bool.false_ne_true) begin_dims).last
    · rw [hidle] at hpend
      cases hpend
    · exact Board.output_replay.mpr (.inr (begin_outputs (hgrows ▸ hr) (hgcols ▸ hc) set))
  have hgood : Good (Shows rows cols) d ⟨x, Board.reset.replay g.begin⟩ := ⟨hwf, hd, hdrv, hshows⟩
  obtain ⟨s, log, hrun, hs⟩ : ∃ s log, Bench.run g.handle _ ops = some (s, log) ∧ Good (Shows rows cols) d s := hgood.run
    (P := fun a i => i.1 = .begin → ∀ r c, a.pulses.pending r c = false)
    (fun a k i hJ hd hdrv hi => step_relation (Q := fun a => ∀ r c, a.pulses.pending r c = false)
      (fun _ _ _ _ hJ hd he hdo => hJ.event hrows hcols hd he hdo) (fun _ _ hJ hoff => hJ.begun hoff) hJ hd hdrv hi)
    hops hbegin
  have hshows := hs.holds
  refine ⟨s, _, Machine.run_cons hfirst hrun, fun r c set hr hc => ⟨fun hhigh => ?_, fun hpend => ?_⟩⟩
  · exact coil_lit (by rwa [hshows.rows_eq]) (by rwa [hshows.cols_eq]) hshows.inRange hshows.within
      (by rw [hshows.rows_eq, hshows.cols_eq]; exact ⟨hr, hc⟩) (Board.level_of_high hhigh)
  · have hlevel := hshows.lights r c hpend.1
    rw [hpend.2] at hlevel
    rw [Board.high, hlevel, hshows.outputs r c set hr hc]
    rfl

/-- The sketch's matrix, with one pulse released and one in flight. -/
theorem coils_follow_two_by_two : ∃ x, XPoint.Attached 2 2 .latchingDualCoil 20 0 x ∧
    let g : DualCoilDriver := ⟨2, 2⟩
    ∃ s log, Bench.run g.handle ⟨x, .reset⟩ [(.begin, fun _ => 0), (.connect 0 0, fun _ => 0), (.connect 1 1, fun _ => 15),
      (.update, fun _ => 20)] = some (s, log) ∧
      ∀ r c set, r < 2 → c < 2 → (s.board.high (coil r c set) = true ↔
        s.matrix.pulses.pending r c = true ∧ s.matrix.tables.conn r c = set) := by
  obtain ⟨x, hx⟩ := XPoint.exists_attached 2 2 .latchingDualCoil 20 0
  let g : DualCoilDriver := ⟨2, 2⟩
  obtain ⟨s, log, hrun, hcoils⟩ := coils_follow (g := g) (by decide) (by decide) hx rfl rfl
    (show ∀ i ∈ [((.connect 0 0, fun _ => 0) : Op × Clock), (.connect 1 1, fun _ => 15), (.update, fun _ => 20)],
      i.1.KeepsDriver 0 by simp [Op.KeepsDriver]) (fun _ => 0)
    ⟨by simp, fun _ _ => ⟨by simp, fun _ _ => ⟨by simp, fun _ _ => trivial⟩⟩⟩
  exact ⟨x, hx, s, log, hrun, hcoils⟩

end DualCoilDriver

end Crosspoint
