import Crosspoint.Theorems.Bench
import Crosspoint.Theorems.Mapping

/-! One pin for each node of a non-latching matrix. -/

namespace Crosspoint
open Bench TableXPoint Traces

namespace ArduinoDirectGPIODriver
variable {g : ArduinoDirectGPIODriver} {a b : TableXPoint} {k : Board} {e : Event} {r c : UInt8} {on : Bool}

/-- The pins of the connected nodes, as far as the driver has them. -/
def lit (g : ArduinoDirectGPIODriver) (a : TableXPoint) (q : Int) : Prop :=
  ∃ r c, a.conn r c = true ∧ g.pin r c = q ∧ g.map r c ≤ g.maxPin

theorem begin_dims : ∀ call ∈ g.begin, call.Dims := by
  intro call hcall
  obtain ⟨r, -, hcall⟩ := List.mem_flatMap.mp hcall
  obtain ⟨c, -, hcall⟩ := List.mem_flatMap.mp hcall
  split at hcall
  · simp only [List.mem_cons, List.not_mem_nil, or_false] at hcall
    rcases hcall with rfl | rfl
    · trivial
    · rfl
  · cases hcall

theorem within_set (hk : Within g.lit a k) (hpin : g.map r c ≤ g.maxPin) :
    Within g.lit (a.setConn r c on) (k.take (.digitalWrite (g.pin r c) on)) := fun q hq => by
  rw [Board.level_write] at hq
  split at hq
  · rename_i heq
    exact ⟨r, c, (setEntry_self ..).trans hq, heq.symm, hpin⟩
  · rename_i hne
    obtain ⟨r', c', hconn, hq', hpin'⟩ := hk q hq
    have hother : ¬(r' = r ∧ c' = c) := fun heq => hne (by rw [← hq', heq.1, heq.2])
    exact ⟨r', c', (setEntry_ne hother).trans hconn, hq', hpin'⟩

/-- A node whose pin the driver does not have is switched without a call. -/
theorem within_beyond (hk : Within g.lit a k) (hpin : g.maxPin < g.map r c) : Within g.lit (a.setConn r c on) k :=
  fun q hq => by
  obtain ⟨r', c', hconn, hq', hpin'⟩ := hk q hq
  have hother : ¬(r' = r ∧ c' = c) := fun heq => by
    rw [heq.1, heq.2] at hpin'
    exact absurd hpin (UInt8.not_lt.mpr hpin')
  exact ⟨r', c', (setEntry_ne hother).trans hconn, hq', hpin'⟩

theorem set_lights (hk : Within g.lit a k) (r c : UInt8) (on : Bool) :
    Throughout Board.take (fun k => Within g.lit a k ∨ Within g.lit (a.setConn r c on) k) k (g.setNodeHardware r c on) ∧
      Within g.lit (a.setConn r c on) (k.replay (g.setNodeHardware r c on)) := by
  unfold setNodeHardware
  split
  · rename_i hpin
    have hb : Within g.lit (a.setConn r c on) k := within_beyond hk hpin
    exact ⟨throughout_nil.mpr (.inr hb), hb⟩
  · rename_i hpin
    have hmode : Within g.lit a (k.take (.pinMode (g.pin r c))) := hk.dim trivial
    have hb : Within g.lit (a.setConn r c on) ((k.take (.pinMode (g.pin r c))).take (.digitalWrite (g.pin r c) on)) :=
      within_set hmode (UInt8.not_lt.mp hpin)
    exact ⟨throughout_cons.mpr ⟨.inl hk, throughout_cons.mpr ⟨.inl hmode, throughout_nil.mpr (.inr hb)⟩⟩, hb⟩

theorem lights (g : ArduinoDirectGPIODriver) : Lights g.handle g.lit .nonLatching := by
  intro a e b k ht _ hdo hk
  have hquiet : ∀ b : TableXPoint, b.conn = a.conn →
      Throughout Board.take (fun k => Within g.lit a k ∨ Within g.lit b k) k [] ∧
      Within g.lit b (k.replay []) := fun b hconn => by
    have hb : Within g.lit b k := fun q hq => by
      obtain ⟨r, c, hc, hq⟩ := hk q hq
      exact ⟨r, c, hconn ▸ hc, hq⟩
    exact ⟨throughout_nil.mpr (.inl hk), hb⟩
  cases hdo with
  | @switch r c on =>
    rw [Event.calls, List.flatMap_singleton]
    exact set_lights hk r c on
  | @level r c level =>
    rw [Event.calls, List.flatMap_singleton]
    exact set_lights hk r c _
  | begin =>
    rw [Event.calls, List.flatMap_singleton]
    have hall := hk.dims (begin_dims (g := g))
    exact ⟨hall.imp fun _ => .inl, hall.last⟩
  | commit | lock | exclude | attach => exact hquiet _ rfl
  | pulse ht' | repulse ht' | skip ht' | release ht' => cases ht'.symm.trans ht

/-! ### The pins of a run -/

variable {rows cols : UInt8} {pdur : UInt16} {d : DriverRef} {x : XPoint} {ops : List (Op × Clock)}

/-- At every instant of a run whose rules are set when their rows and columns obey them: no column has the pins of two
    locked rows high, and no exclusive column the pins of two rows. -/
theorem pins_apart (h : XPoint.Attached rows cols .nonLatching pdur d x) (hmap : Injects rows cols g.map)
    (hops : ∀ i ∈ ops, i.1.KeepsDriver d) (hobeys : Machine.Along XPoint.step (fun x i => x.tables.Obeys i) x ops) :
    (∃ s log, Bench.run g.handle ⟨x, .reset⟩ ops = some (s, log)) ∧
      Bench.Always g.handle (fun b k => b.Apart fun r c => k.high (g.pin r c)) ⟨x, .reset⟩ ops := by
  obtain ⟨hrun, halways⟩ := always_shown (lights g) h hops (hobeys.imp fun _ _ hi (_ : True) => hi)
  refine ⟨hrun, halways.imp fun s i hshown t rep ht => (hshown t rep ht).imp fun k hk => ?_⟩
  obtain ⟨hrows, hcols, a, ha, hwithin⟩ := hk
  refine ha.apart fun r c hr hc hhigh => ?_
  obtain ⟨r', c', hconn, hpin, -⟩ := hwithin _ (Board.level_of_high hhigh)
  have hin := ha.inRange r' c' (occupied_iff.mpr (.inl hconn))
  rw [ha.rows, ha.cols, hrows, hcols] at hin
  rw [hrows] at hr
  rw [hcols] at hc
  obtain ⟨rfl, rfl⟩ := hmap r' c' r c hin.1 hin.2 hr hc (UInt8.toNat_inj.mp (Int.ofNat.inj hpin))
  exact occupied_iff.mpr (.inl hconn)

/-- The 4×4 matrix on pins 2 to 17, with two locked rows of which one is refused. -/
theorem pins_apart_four_by_four : ∃ x, XPoint.Attached 4 4 .nonLatching 0 0 x ∧
    let g : ArduinoDirectGPIODriver := ⟨4, 4, rowMajorPin 2 4, 17⟩
    Bench.Always g.handle (fun b k => b.Apart fun r c => k.high (g.pin r c)) ⟨x, .reset⟩
      [(.lockRows 0 1, fun _ => 0), (.begin, fun _ => 0), (.connect 0 0, fun _ => 0), (.connect 1 0, fun _ => 1)] := by
  obtain ⟨x, hx⟩ := XPoint.exists_attached 4 4 .nonLatching 0 0
  refine ⟨x, hx, (pins_apart hx (injects_rowMajorPin (by decide)) (by simp [Op.KeepsDriver]) ?_).2⟩
  exact ⟨hx.obeys _, fun _ _ => ⟨trivial, fun _ _ => ⟨trivial, fun _ _ => ⟨trivial, fun _ _ => trivial⟩⟩⟩⟩

/-- The pin of a node of the matrix, as far as the driver has it. -/
def Own (g : ArduinoDirectGPIODriver) (rows cols : UInt8) (q : Int) : Prop :=
  ∃ r c, r < rows ∧ c < cols ∧ g.pin r c = q ∧ g.map r c ≤ g.maxPin

/-- The board shows the tables: the pins of the connected nodes are high, all other pins low, and only the pins of nodes
    were ever used. -/
structure Shows (g : ArduinoDirectGPIODriver) (rows cols : UInt8) (a : TableXPoint) (k : Board) : Prop where
  type : a.type = .nonLatching
  rows_eq : a.rows = rows
  cols_eq : a.cols = cols
  inRange : ∀ r c, a.conn r c = true → r < rows ∧ c < cols
  within : Within g.lit a k
  lights : ∀ r c, a.conn r c = true → g.map r c ≤ g.maxPin → k.high (g.pin r c) = true
  used : ∀ q, k.output q = true ∨ k.level q = true → g.Own rows cols q

theorem used_take {call : PinCall} (hcall : g.Own rows cols call.pin)
    (h : ∀ q, k.output q = true ∨ k.level q = true → g.Own rows cols q) (q : Int)
    (hq : (k.take call).output q = true ∨ (k.take call).level q = true) : g.Own rows cols q := by
  cases call with
  | pinMode p =>
    rw [Board.output_mode, Board.level_mode] at hq
    by_cases heq : q = p
    · exact heq ▸ hcall
    · rw [if_neg heq] at hq
      exact h q hq
  | digitalWrite p v =>
    rw [Board.output_write, Board.level_write] at hq
    by_cases heq : q = p
    · exact heq ▸ hcall
    · rw [if_neg heq] at hq
      exact h q hq

theorem used_replay {calls : List PinCall} (hcalls : ∀ call ∈ calls, g.Own rows cols call.pin)
    (h : ∀ q, k.output q = true ∨ k.level q = true → g.Own rows cols q) :
    ∀ q, (k.replay calls).output q = true ∨ (k.replay calls).level q = true → g.Own rows cols q :=
  List.foldlRecOn (motive := fun k => ∀ q, k.output q = true ∨ k.level q = true → g.Own rows cols q) calls Board.take h
    fun _ hk call hcall => used_take (hcalls call hcall) hk

theorem begin_own (hrows : g.rows = rows) (hcols : g.cols = cols) : ∀ call ∈ g.begin, g.Own rows cols call.pin := by
  intro call hcall
  obtain ⟨r, hr, hcall⟩ := List.mem_flatMap.mp hcall
  obtain ⟨c, hc, hcall⟩ := List.mem_flatMap.mp hcall
  rw [Loops.mem_below, hrows] at hr
  rw [Loops.mem_below, hcols] at hc
  split at hcall
  · rename_i hpin
    refine ⟨r, c, hr, hc, ?_, hpin⟩
    simp only [List.mem_cons, List.not_mem_nil, or_false] at hcall
    rcases hcall with rfl | rfl <;> rfl
  · cases hcall

theorem set_own (hr : r < rows) (hc : c < cols) : ∀ call ∈ g.setNodeHardware r c on, g.Own rows cols call.pin := by
  intro call hcall
  unfold setNodeHardware at hcall
  split at hcall
  · cases hcall
  · rename_i hpin
    refine ⟨r, c, hr, hc, ?_, UInt8.not_lt.mp hpin⟩
    simp only [List.mem_cons, List.not_mem_nil, or_false] at hcall
    rcases hcall with rfl | rfl <;> rfl

theorem Shows.set (hmap : Injects rows cols g.map) (h : Shows g rows cols a k) (hall : a.Allows r c on) :
    Shows g rows cols (a.setConn r c on) (k.replay (g.setNodeHardware r c on)) := by
  have hr : r < rows := h.rows_eq ▸ hall.row
  have hc : c < cols := h.cols_eq ▸ hall.col
  have hin : ∀ r' c', (a.setConn r c on).conn r' c' = true → r' < rows ∧ c' < cols := fun r' c' hconn => by
    by_cases heq : r' = r ∧ c' = c
    · rw [heq.1, heq.2]
      exact ⟨hr, hc⟩
    · exact h.inRange r' c' ((setEntry_ne heq).symm.trans hconn)
  refine ⟨h.type, h.rows_eq, h.cols_eq, hin, (set_lights h.within r c on).2, fun r' c' hconn hpin => ?_,
    used_replay (set_own hr hc) h.used⟩
  unfold setNodeHardware
  by_cases heq : r' = r ∧ c' = c
  · obtain ⟨rfl, rfl⟩ := heq
    obtain rfl : on = true := (setEntry_self ..).symm.trans hconn
    rw [if_neg (UInt8.not_lt.mpr hpin)]
    simp [Board.replay, Board.high, Board.take]
  · have hne : g.pin r' c' ≠ g.pin r c := fun hpins => by
      obtain ⟨hr', hc'⟩ := hin r' c' hconn
      exact heq (hmap r' c' r c hr' hc' hr hc (UInt8.toNat_inj.mp (Int.ofNat.inj hpins)))
    have hhigh := h.lights r' c' ((setEntry_ne heq).symm.trans hconn) hpin
    split
    · exact hhigh
    · simpa [Board.replay, Board.high, Board.take, Function.update_of_ne hne] using hhigh

theorem Shows.congr (h : Shows g rows cols a k) (ht : b.type = a.type) (hr : b.rows = a.rows) (hc : b.cols = a.cols)
    (hconn : b.conn = a.conn) : Shows g rows cols b k where
  type := ht.trans h.type
  rows_eq := hr.trans h.rows_eq
  cols_eq := hc.trans h.cols_eq
  inRange := hconn.symm ▸ h.inRange
  within q hq := by
    obtain ⟨r, c, hrc, hq⟩ := h.within q hq
    exact ⟨r, c, hconn ▸ hrc, hq⟩
  lights := hconn.symm ▸ h.lights
  used := h.used

theorem Shows.event (hmap : Injects rows cols g.map) (h : Shows g rows cols a k) (he : e ≠ .begin) (hdo : Does a e b) :
    Shows g rows cols b (k.replay (e.calls.flatMap g.handle)) := by
  cases hdo with
  | switch ht hall =>
    rw [Event.calls, List.flatMap_singleton]
    exact h.set hmap hall
  | level ht hall =>
    rw [Event.calls, List.flatMap_singleton]
    exact h.set hmap hall
  | begin => exact absurd rfl he
  | commit | lock | exclude | attach => exact h.congr rfl rfl rfl rfl
  | pulse ht | repulse ht | skip ht | release ht => cases ht.symm.trans h.type

/-- `begin` makes pins low; if no node is connected, they are. -/
theorem Shows.begun (hrows : g.rows = rows) (hcols : g.cols = cols) (h : Shows g rows cols a k)
    (hoff : ∀ r c, a.conn r c = false) : Shows g rows cols a (k.replay g.begin) where
  type := h.type
  rows_eq := h.rows_eq
  cols_eq := h.cols_eq
  inRange := h.inRange
  within := (h.within.dims begin_dims).last
  lights r c hconn := by
    rw [hoff] at hconn
    cases hconn
  used := used_replay (begin_own hrows hcols) h.used

/-- After every run that begins the driver only while nothing is connected: the pin of a node is high exactly if the node
    is connected, and every pin that is not the pin of a node, or above `maxPin`, is as the reset left it. -/
theorem pins_follow (h : XPoint.Attached rows cols .nonLatching pdur d x) (hmap : Injects rows cols g.map)
    (hrows : g.rows = rows) (hcols : g.cols = cols) (hops : ∀ i ∈ ops, i.1.KeepsDriver d)
    (hbegin : Machine.Along XPoint.step (fun x i => i.1 = .begin → ∀ r c, x.tables.conn r c = false) x ops) :
    ∃ s log, Bench.run g.handle ⟨x, .reset⟩ ops = some (s, log) ∧
      (∀ r c, r < rows → c < cols →
        (s.board.high (g.pin r c) = true ↔ s.matrix.tables.conn r c = true ∧ g.map r c ≤ g.maxPin)) ∧
      ∀ q, (∀ r c, r < rows → c < cols → g.pin r c = q → g.maxPin < g.map r c) →
        s.board.output q = false ∧ s.board.level q = false := by
  have hgood : Good (Shows g rows cols) d ⟨x, .reset⟩ := good_attached h fun valid =>
    ⟨rfl, rfl, rfl, fun _ _ hconn => absurd hconn Bool.false_ne_true, fun _ hq => absurd hq Bool.false_ne_true,
      fun _ _ hconn => absurd hconn Bool.false_ne_true, fun _ hq =>
        hq.elim (absurd · Bool.false_ne_true) (absurd · Bool.false_ne_true)⟩
  obtain ⟨s, log, hrun, hs⟩ := hgood.run (P := fun a i => i.1 = .begin → ∀ r c, a.conn r c = false)
    (fun a k i hJ hd hdrv hi => step_relation (Q := fun a => ∀ r c, a.conn r c = false)
      (fun _ _ _ _ hJ _ he hdo => hJ.event hmap he hdo) (fun _ _ hJ hoff => hJ.begun hrows hcols hoff) hJ hd hdrv hi)
    hops hbegin
  have hshows := hs.holds
  refine ⟨s, log, hrun, fun r c hr hc => ⟨fun hhigh => ?_, fun hconn => hshows.lights r c hconn.1 hconn.2⟩, fun q hq => ?_⟩
  · obtain ⟨r', c', hconn, hpin, hmax⟩ := hshows.within _ (Board.level_of_high hhigh)
    obtain ⟨hr', hc'⟩ := hshows.inRange r' c' hconn
    obtain ⟨rfl, rfl⟩ := hmap r' c' r c hr' hc' hr hc (UInt8.toNat_inj.mp (Int.ofNat.inj hpin))
    exact ⟨hconn, hmax⟩
  · have hnot : ¬(s.board.output q = true ∨ s.board.level q = true) := fun hused => by
      obtain ⟨r, c, hr, hc, hpin, hmax⟩ := hshows.used q hused
      exact absurd (hq r c hr hc hpin) (UInt8.not_lt.mpr hmax)
    simpa using hnot

/-- The 4×4 matrix on pins 2 to 17. -/
theorem pins_follow_four_by_four : ∃ x, XPoint.Attached 4 4 .nonLatching 0 0 x ∧
    let g : ArduinoDirectGPIODriver := ⟨4, 4, rowMajorPin 2 4, 17⟩
    ∃ s log, Bench.run g.handle ⟨x, .reset⟩ [(.begin, fun _ => 0), (.connect 0 0, fun _ => 0), (.connect 3 1, fun _ => 0),
      (.disconnect 0 0, fun _ => 0)] = some (s, log) ∧
      ∀ r c, r < 4 → c < 4 →
        (s.board.high (g.pin r c) = true ↔ s.matrix.tables.conn r c = true ∧ g.map r c ≤ g.maxPin) := by
  obtain ⟨x, hx⟩ := XPoint.exists_attached 4 4 .nonLatching 0 0
  let g : ArduinoDirectGPIODriver := ⟨4, 4, rowMajorPin 2 4, 17⟩
  have hoff : ∀ r c, x.tables.conn r c = false := fun r c => by
    obtain ⟨-, -, valid, ht⟩ := hx.spec
    rw [ht]
    rfl
  obtain ⟨s, log, hrun, hpins, -⟩ := pins_follow (g := g) hx (injects_rowMajorPin (by decide)) rfl rfl
    (show ∀ i ∈ [((.begin, fun _ => 0) : Op × Clock), (.connect 0 0, fun _ => 0), (.connect 3 1, fun _ => 0),
      (.disconnect 0 0, fun _ => 0)], i.1.KeepsDriver 0 by simp [Op.KeepsDriver])
    ⟨fun _ => hoff, fun _ _ => ⟨by simp, fun _ _ => ⟨by simp, fun _ _ => ⟨by simp, fun _ _ => trivial⟩⟩⟩⟩
  exact ⟨x, hx, s, log, hrun, hpins⟩

end ArduinoDirectGPIODriver

/-! ### The virtual driver -/

namespace DirectGPIODriver
open Buffers
variable {g : ArduinoDirectGPIODriver} {k : Board} {r c : UInt8} {on : Bool} {call : DriverCall} {calls : List DriverCall}

/-- The mapper of `g` for a virtual driver. -/
def wide (g : ArduinoDirectGPIODriver) (r c : UInt8) : UInt16 := (g.map r c).toUInt16

/-- The virtual pins are the pins of the board, and the board drives every pin that it raised. -/
structure Agrees (g : ArduinoDirectGPIODriver) (v : DirectGPIODriver (g.maxPin.toUInt16 + 1)) (k : Board) : Prop where
  map : v.map = wide g
  pins : ∀ p : UInt8, p ≤ g.maxPin → load v.pins p.toNat = some (k.high p.toNat)
  driven : ∀ q, k.level q = true → k.output q = true

theorem nPins_toNat : (g.maxPin.toUInt16 + 1).toNat = g.maxPin.toNat + 1 := by
  have := g.maxPin.toNat_lt
  rw [UInt16.toNat_add, UInt8.toNat_toUInt16]
  exact Nat.mod_eq_of_lt (by simp only [UInt16.reduceToNat]; omega)

theorem wide_ge : g.maxPin.toUInt16 + 1 ≤ wide g r c ↔ g.maxPin < g.map r c := by
  rw [UInt16.le_iff_toNat_le, UInt8.lt_iff_toNat_lt, nPins_toNat, wide, UInt8.toNat_toUInt16]
  exact Iff.rfl

theorem Agrees.set {v : DirectGPIODriver (g.maxPin.toUInt16 + 1)} (h : Agrees g v k) (r c : UInt8) (on : Bool) :
    ∃ v', v.setNodeHardware r c on = some v' ∧ Agrees g v' (k.replay (g.setNodeHardware r c on)) := by
  unfold setNodeHardware ArduinoDirectGPIODriver.setNodeHardware
  rw [h.map]
  dsimp only
  by_cases hpin : g.maxPin < g.map r c
  · rw [if_pos (wide_ge.mpr hpin), if_pos hpin]
    exact ⟨v, rfl, h⟩
  · rw [if_neg fun hge => hpin (wide_ge.mp hge), if_neg hpin]
    have hlt : (wide g r c).toNat < (g.maxPin.toUInt16 + 1).toNat :=
      UInt16.lt_iff_toNat_lt.mp (UInt16.not_le.mp fun hge => hpin (wide_ge.mp hge))
    obtain ⟨pins, hstore, hload⟩ := store_eq_some (p := v.pins) (x := on) hlt
    refine ⟨⟨wide g, pins⟩, by rw [hstore]; rfl, rfl, fun p hp => ?_, fun q hq => ?_⟩
    · have hsame : (wide g r c).toNat = p.toNat ↔ (p.toNat : Int) = g.pin r c := by
        rw [wide, UInt8.toNat_toUInt16, ArduinoDirectGPIODriver.pin, Int.natCast_inj, eq_comm]
      rw [hload, Board.high_set, h.pins p hp]
      simp only [hsame]
      split <;> rfl
    · rw [Board.output_replay]
      rw [Board.replay, List.foldl_cons, List.foldl_cons, List.foldl_nil, Board.level_write, Board.level_mode] at hq
      by_cases hpin' : q = g.pin r c
      · rw [hpin']
        exact .inr List.mem_cons_self
      · rw [if_neg hpin'] at hq
        exact .inl (h.driven q hq)

/-- Every call but `begin` does the same to the virtual pins and to the board. -/
theorem Agrees.handle {v : DirectGPIODriver (g.maxPin.toUInt16 + 1)} (h : Agrees g v k) (hcall : call ≠ .begin) :
    ∃ v', v.handle call = some v' ∧ Agrees g v' (k.replay (g.handle call)) := by
  cases call with
  | begin => exact absurd rfl hcall
  | setNodeHardware r c state => exact h.set r c state
  | setNodeLevel r c level => exact h.set r c (level > 0)
  | releaseNode r c => exact ⟨v, rfl, h⟩
  | commitPhysicalUpdates => exact ⟨v, rfl, h⟩

theorem run_agrees {v : DirectGPIODriver (g.maxPin.toUInt16 + 1)} (h : Agrees g v k) (hcalls : DriverCall.begin ∉ calls) :
    ∃ v' log, run v calls = some (v', log) ∧ Agrees g v' (k.replay (calls.flatMap g.handle)) := by
  induction calls generalizing v k with
  | nil => exact ⟨v, [], rfl, h⟩
  | cons call calls ih =>
    obtain ⟨v₁, hstep, h₁⟩ := h.handle fun heq => hcalls (heq ▸ List.mem_cons_self)
    obtain ⟨v', log, hrun, h'⟩ := ih h₁ fun hmem => hcalls (List.mem_cons_of_mem _ hmem)
    refine ⟨v', _, Machine.run_cons (congrArg (Option.map fun d => (d, ())) hstep) hrun, ?_⟩
    rwa [List.flatMap_cons, Board.replay_append]

/-- `begin` writes the pins of the nodes low, and they still are. -/
theorem run_begins {v : DirectGPIODriver (g.maxPin.toUInt16 + 1)} (n : Nat) (h : Agrees g v k)
    (hlow : ∀ q, k.level q = false) : ∃ log, run v (List.replicate n .begin) = some (v, log) ∧
      Agrees g v (k.replay ((List.replicate n .begin).flatMap g.handle)) := by
  induction n generalizing k with
  | zero => exact ⟨[], rfl, h⟩
  | succ n ih =>
    have hlow' := Board.low_replay (k := k) g.begin_dims hlow
    have hhigh : ∀ k : Board, (∀ q, k.level q = false) → ∀ q, k.high q = false := fun k hk q => by
      rw [Board.high, hk, Bool.and_false]
    obtain ⟨log, hrun, h'⟩ := ih (k := k.replay g.begin)
      ⟨h.map, fun p hp => by rw [h.pins p hp, hhigh k hlow, hhigh _ hlow'], fun q hq => by
        rw [hlow'] at hq
        cases hq⟩ hlow'
    refine ⟨_, Machine.run_cons rfl hrun, ?_⟩
    rwa [List.replicate_succ, List.flatMap_cons, Board.replay_append]

/-- The virtual driver reports what the board shows, whatever calls follow the first `begin` calls. -/
theorem pins_agree (g : ArduinoDirectGPIODriver) (n : Nat) (hcalls : DriverCall.begin ∉ calls) :
    ∃ v log, run (new (g.maxPin.toUInt16 + 1) (wide g)) (List.replicate n DriverCall.begin ++ calls) = some (v, log) ∧
      ∀ p : UInt8, p ≤ g.maxPin → v.pinState p.toUInt16 =
        some ((Board.reset.replay ((List.replicate n DriverCall.begin ++ calls).flatMap g.handle)).high p.toNat) := by
  have hnew : Agrees g (new (g.maxPin.toUInt16 + 1) (wide g)) .reset := by
    refine ⟨rfl, fun p hp => ?_, fun q hq => by cases hq⟩
    have hlt : p.toNat < (g.maxPin.toUInt16 + 1).toNat := by
      rw [nPins_toNat]
      exact Nat.lt_succ_of_le (UInt8.le_iff_toNat_le.mp hp)
    rw [load_eq hlt]
    exact congrArg some (Vector.getElem_replicate hlt)
  obtain ⟨log₁, hrun₁, h₁⟩ := run_begins n hnew fun _ => rfl
  obtain ⟨v, log₂, hrun₂, h₂⟩ := run_agrees h₁ hcalls
  refine ⟨v, _, Machine.run_append hrun₁ hrun₂, fun p hp => ?_⟩
  have hin : ¬g.maxPin.toUInt16 + 1 ≤ p.toUInt16 := by
    rw [UInt16.le_iff_toNat_le, nPins_toNat, UInt8.toNat_toUInt16]
    exact Nat.not_lt.mpr (UInt8.le_iff_toNat_le.mp hp)
  rw [pinState, if_neg hin, List.flatMap_append, Board.replay_append]
  exact h₂.pins p hp

/-- Pins 2 to 17, and a call for a pin beyond. -/
theorem pins_agree_sixteen_pins :
    let g : ArduinoDirectGPIODriver := ⟨4, 4, rowMajorPin 2 4, 17⟩
    let calls : List DriverCall :=
      [.setNodeHardware 0 0 true, .setNodeLevel 3 3 7, .setNodeHardware 5 0 true, .commitPhysicalUpdates]
    ∃ v log, run (new (g.maxPin.toUInt16 + 1) (wide g)) (List.replicate 1 DriverCall.begin ++ calls) = some (v, log) ∧
      ∀ p : UInt8, p ≤ g.maxPin → v.pinState p.toUInt16 =
        some ((Board.reset.replay ((List.replicate 1 DriverCall.begin ++ calls).flatMap g.handle)).high p.toNat) := by
  intro g calls
  exact pins_agree g 1 (by simp [calls])

end DirectGPIODriver

end Crosspoint
