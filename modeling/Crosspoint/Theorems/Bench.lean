import Crosspoint.GPIO
import Crosspoint.Theorems.Interlock

/-! The rules at every instant. An operation is a sequence of events, and a driver lights the pins of an event one by
    one; as long as every pin that is lit belongs to the tables before or after the event in progress, no instant shows
    more than some tables that keep the rules. -/

namespace Crosspoint
open PulseTable Traces

/-! ### The board -/

namespace Board
variable {k : Board} {p q : Int} {v : Bool} {cs ds : List PinCall}

theorem replay_append : k.replay (cs ++ ds) = (k.replay cs).replay ds := List.foldl_append

theorem level_write : (k.take (.digitalWrite p v)).level q = if q = p then v else k.level q := Function.update_apply ..

theorem level_mode : (k.take (.pinMode p)).level q = k.level q := rfl

theorem output_mode : (k.take (.pinMode p)).output q = if q = p then true else k.output q := Function.update_apply ..

theorem output_write : (k.take (.digitalWrite p v)).output q = k.output q := rfl

theorem output_replay : (k.replay cs).output p = true ↔ k.output p = true ∨ .pinMode p ∈ cs := by
  induction cs generalizing k with
  | nil => simp [replay]
  | cons call cs ih =>
    refine (ih (k := k.take call)).trans ?_
    cases call with
    | pinMode q =>
      rw [output_mode]
      by_cases hpq : p = q <;> simp [hpq]
    | digitalWrite q v =>
      rw [output_write]
      simp

/-- A pin that is made an output and then written. -/
theorem high_set : (k.replay [.pinMode p, .digitalWrite p v]).high q = if q = p then v else k.high q := by
  rw [high, replay, List.foldl_cons, List.foldl_cons, List.foldl_nil, output_write, output_mode, level_write, level_mode]
  by_cases hq : q = p
  · rw [if_pos hq, if_pos hq, if_pos hq, Bool.true_and]
  · rw [if_neg hq, if_neg hq, if_neg hq, high]

/-- Calls that raise no level leave a board low. -/
theorem low_replay (hcs : ∀ call ∈ cs, call.Dims) (h : ∀ q, k.level q = false) (q : Int) :
    (k.replay cs).level q = false := by
  refine List.foldlRecOn (motive := fun k => ∀ q, k.level q = false) cs take h (fun k hk call hcall q => ?_) q
  cases call with
  | pinMode p => exact hk q
  | digitalWrite p v =>
    rw [level_write]
    split
    · exact hcs _ hcall
    · exact hk q

theorem level_of_high (h : k.high p = true) : k.level p = true := (Bool.and_eq_true_iff.mp h).2

end Board

/-! ### The tables on the way -/

namespace TableXPoint
variable {a b s t : TableXPoint} {e : Event} {es : List Event} {op : Op} {calls : List DriverCall}
  {on : UInt8 → UInt8 → Bool} {obeyed : Prop}

/-- Tables of the shape and rules of `a`, which they keep if the rules were `obeyed` when they were set. -/
structure Ruled (obeyed : Prop) (a s : TableXPoint) : Prop where
  type : s.type = a.type
  rows : s.rows = a.rows
  cols : s.cols = a.cols
  lock : s.lock = a.lock
  excl : s.excl = a.excl
  distinct : s.pulses.Distinct
  inRange : s.InRange
  interlocked : obeyed → s.Interlocked

theorem Ruled.self (hd : a.pulses.Distinct) (hr : a.InRange) (hI : obeyed → a.Interlocked) : Ruled obeyed a a :=
  ⟨rfl, rfl, rfl, rfl, rfl, hd, hr, hI⟩

theorem Ruled.others (hb : Ruled obeyed a b) (hs : Ruled obeyed a s) : Ruled obeyed b s :=
  ⟨hs.type.trans hb.type.symm, hs.rows.trans hb.rows.symm, hs.cols.trans hb.cols.symm, hs.lock.trans hb.lock.symm,
    hs.excl.trans hb.excl.symm, hs.distinct, hs.inRange, hs.interlocked⟩

theorem Does.ruled (h : Does s e t) (hlock : ∀ rowA rowB, e ≠ .lock rowA rowB) (hexcl : ∀ col, e ≠ .exclude col)
    (hs : Ruled obeyed a s) : Ruled obeyed a t where
  type := h.type.trans hs.type
  rows := h.rows.trans hs.rows
  cols := h.cols.trans hs.cols
  lock := (h.lock_eq hlock).trans hs.lock
  excl := (h.excl_eq hexcl).trans hs.excl
  distinct := h.distinct hs.distinct
  inRange := h.inRange hs.inRange
  interlocked hobeyed := h.interlocked hlock hexcl hs.inRange (hs.interlocked hobeyed)

/-- `keeps` for an invariant of the calls that the operation itself makes. -/
theorem Decomposes.keeps_nil {J : List DriverCall → TableXPoint → Prop} (h : Decomposes a op b calls es)
    (hdrv : a.drv.isSome = true) (hd : a.pulses.Distinct) (hJ : J [] a)
    (hev : ∀ cs s e t, J cs s → s.pulses.Distinct → e ∈ es → Does s e t → J (cs ++ e.calls) t) : J calls b :=
  h.keeps hdrv hd hJ hev

/-- An operation that sets up no rule keeps the rules event by event. -/
theorem Decomposes.ruled (h : Decomposes a op b calls es) (hop : ¬op.Configures) (he : e ∈ es) (hdo : Does s e t)
    (hs : Ruled obeyed a s) : Ruled obeyed a t := by
  refine hdo.ruled (fun A B heq => hop ?_) (fun c heq => hop ?_) hs
  · rw [emits_lock (show op.Emits (.lock A B) from heq ▸ h.emits e he)]
    trivial
  · rw [emits_exclude (show op.Emits (.exclude c) from heq ▸ h.emits e he)]
    trivial

/-- What is on only where the tables are occupied obeys the rules. -/
theorem Ruled.apart (hs : Ruled True a s) (hon : ∀ r c, r < a.rows → c < a.cols → on r c = true → s.occupied r c = true) :
    a.Apart on where
  lock r s' c hr hs' hc hne hl hboth :=
    (hs.interlocked trivial).lock r s' c hne (hs.lock ▸ hl) ⟨hon r c hr hc hboth.1, hon s' c hs' hc hboth.2⟩
  excl r s' c hr hs' hc hne hx hboth :=
    (hs.interlocked trivial).excl r s' c hne (hs.excl ▸ hx) ⟨hon r c hr hc hboth.1, hon s' c hs' hc hboth.2⟩

/-- An operation that sets up a rule calls no driver. -/
theorem step_configures_calls {i : Op × Clock} (hi : i.1.Configures) : (a.step i).2.calls = [] := by
  obtain ⟨op, millis⟩ := i
  cases op with
  | lockRows rowA rowB =>
    change (a.lockRows rowA rowB).2.calls = []
    unfold lockRows
    split <;> rfl
  | exclusiveInput col =>
    change (a.exclusiveInput col).2.calls = []
    unfold exclusiveInput
    split <;> rfl
  | _ => exact absurd hi id

theorem step_configures_conn {i : Op × Clock} (hi : i.1.Configures) : (a.step i).1.conn = a.conn := by
  obtain ⟨op, millis⟩ := i
  cases op with
  | lockRows rowA rowB =>
    change (a.lockRows rowA rowB).1.conn = a.conn
    unfold lockRows
    split <;> rfl
  | exclusiveInput col =>
    change (a.exclusiveInput col).1.conn = a.conn
    unfold exclusiveInput
    split <;> rfl
  | _ => exact absurd hi id

end TableXPoint

theorem XPoint.step_begin {x : XPoint} {d : DriverRef} {millis : Clock} (h : x.drv = some d) :
    x.step (.begin, millis) = some (x, ⟨none, [.begin]⟩) := by
  rw [XPoint.step, XPoint.begin, XPoint.drive, h]
  rfl

/-! ### The bench -/

namespace Bench
open TableXPoint
variable {handle : DriverCall → List PinCall} {lit : TableXPoint → Int → Prop} {a b : TableXPoint} {k : Board}
  {type : RelayType} {e : Event} {i : Op × Clock} {obeyed : Prop}

/-- Every pin at a high level is one that the tables light. -/
def Within (lit : TableXPoint → Int → Prop) (a : TableXPoint) (k : Board) : Prop := ∀ q, k.level q = true → lit a q

theorem Within.dim {call : PinCall} (h : Within lit a k) (hcall : call.Dims) : Within lit a (k.take call) := fun q hq => by
  cases call with
  | pinMode p => exact h q hq
  | digitalWrite p v =>
    rw [Board.level_write] at hq
    split at hq
    · cases hcall.symm.trans hq
    · exact h q hq

/-- Calls that raise no level keep what is lit all the way. -/
theorem Within.dims {calls : List PinCall} (h : Within lit a k) (hcalls : ∀ call ∈ calls, call.Dims) :
    Throughout Board.take (Within lit a) k calls := throughout_of_kept (fun call hcall _ hk => hk.dim (hcalls call hcall)) h

/-- What a driver does in an event: at each instant it lights pins of the tables before or after only. -/
def Lights (handle : DriverCall → List PinCall) (lit : TableXPoint → Int → Prop) (type : RelayType) : Prop :=
  ∀ a e b k, a.type = type → a.pulses.Distinct → Does a e b → Within lit a k →
    Throughout Board.take (fun k => Within lit a k ∨ Within lit b k) k (e.calls.flatMap handle) ∧
      Within lit b (k.replay (e.calls.flatMap handle))

/-- Some tables with the rules of `b`, which they keep if these were `obeyed`, light all that is lit. -/
def Shown (obeyed : Prop) (lit : TableXPoint → Int → Prop) (b : TableXPoint) (k : Board) : Prop :=
  ∃ a, Ruled obeyed b a ∧ Within lit a k

theorem flatMap_calls {cs ds : List DriverCall} : (cs ++ ds).flatMap handle = cs.flatMap handle ++ ds.flatMap handle :=
  List.flatMap_append

theorem step_shown (hl : Lights handle lit type) (ht : a.type = type) (hdrv : a.drv.isSome = true) (hd : a.pulses.Distinct)
    (hr : a.InRange) (hI : obeyed → a.Interlocked) (hi : obeyed → a.Obeys i) (hk : Within lit a k) :
    Throughout Board.take (Shown obeyed lit (a.step i).1) k ((a.step i).2.calls.flatMap handle) ∧
      Within lit (a.step i).1 (k.replay ((a.step i).2.calls.flatMap handle)) := by
  obtain ⟨es, h⟩ := step_events hd i
  have hrb : Ruled obeyed (a.step i).1 (a.step i).1 :=
    .self (step_distinct hd i) (step_inRange hd hr i) fun ho => step_interlocked hd hr (hI ho) (hi ho)
  -- The tables after the first events, and the pins that their calls set.
  obtain ⟨hthrough, hlast, -, hruled⟩ := h.keeps_nil
    (J := fun cs s => Throughout Board.take (fun k => ∃ s, (¬i.1.Configures → Ruled obeyed a s) ∧ Within lit s k) k
        (cs.flatMap handle) ∧ Within lit s (k.replay (cs.flatMap handle)) ∧ s.type = type ∧
          (¬i.1.Configures → Ruled obeyed a s))
    hdrv hd ⟨throughout_nil.mpr ⟨a, fun _ => .self hd hr hI, hk⟩, hk, ht, fun _ => .self hd hr hI⟩
    fun cs s e t hJ hds he hdo => by
      obtain ⟨hthrough, hlast, hts, hrs⟩ := hJ
      obtain ⟨hevent, hlast'⟩ := hl s e t _ hts hds hdo hlast
      have hrt : ¬i.1.Configures → Ruled obeyed a t := fun hi => h.ruled hi he hdo (hrs hi)
      have htt := hdo.type.trans hts
      rw [flatMap_calls, Board.replay_append]
      refine ⟨throughout_append.mpr ⟨hthrough, hevent.imp fun k hk => ?_⟩, hlast', htt, hrt⟩
      exact hk.elim (fun hk => ⟨s, hrs, hk⟩) fun hk => ⟨t, hrt, hk⟩
  refine ⟨?_, hlast⟩
  by_cases hconf : i.1.Configures
  · rw [step_configures_calls hconf] at hlast ⊢
    exact throughout_nil.mpr ⟨_, hrb, hlast⟩
  · refine hthrough.imp fun k hk => ?_
    obtain ⟨s, hrs, hks⟩ := hk
    exact ⟨s, (hruled hconf).others (hrs hconf), hks⟩

/-! ### Runs on the bench -/

variable {d : DriverRef} {J : TableXPoint → Board → Prop} {P : TableXPoint → Op × Clock → Prop} {s t : Bench} {rep : Reply}

theorem step_eq_some (h : step handle s i = some (t, rep)) :
    s.matrix.step i = some (t.matrix, rep) ∧ t.board = s.board.replay (rep.calls.flatMap handle) := by
  simp only [step, Option.bind_eq_bind, Option.bind_eq_some_iff, Option.pure_def, Option.some.injEq, Prod.mk.injEq,
    Prod.exists] at h
  obtain ⟨x', rep', hstep, rfl, rfl⟩ := h
  exact ⟨hstep, rfl⟩

/-- A bench in a run with driver `d`, where the tables and the board are in the relation `J`. -/
structure Good (J : TableXPoint → Board → Prop) (d : DriverRef) (s : Bench) : Prop where
  wellFormed : s.matrix.WellFormed
  distinct : s.matrix.pulses.Distinct
  drv : s.matrix.drv = some d
  holds : J s.matrix.tables s.board

theorem Good.step (hstep : ∀ a k i, J a k → a.pulses.Distinct → a.drv = some d → P a i →
      J (a.step i).1 (k.replay ((a.step i).2.calls.flatMap handle)))
    (h : Good J d s) (hdrv : i.1.KeepsDriver d) (hi : P s.matrix.tables i) :
    ∃ t rep, Bench.step handle s i = some (t, rep) ∧ Good J d t ∧ (t.matrix.tables, rep) = s.matrix.tables.step i := by
  obtain ⟨x', rep, hx, hwf, ht⟩ := XPoint.step_matches h.wellFormed i
  have htables : x'.tables = (s.matrix.tables.step i).1 := by rw [ht]
  have hcalls : rep.calls = (s.matrix.tables.step i).2.calls := by rw [ht]
  refine ⟨⟨x', s.board.replay (rep.calls.flatMap handle)⟩, rep, by rw [Bench.step, hx]; rfl, ?_, ht.symm⟩
  refine ⟨hwf, ?_, ?_, ?_⟩
  · change x'.tables.pulses.Distinct
    rw [htables]
    exact step_distinct h.distinct i
  · exact (congrArg TableXPoint.drv htables).trans (step_drv h.distinct h.drv hdrv)
  · dsimp only
    rw [htables, hcalls]
    exact hstep _ _ i h.holds h.distinct h.drv hi

variable {x : XPoint} {rows cols : UInt8} {pdur : UInt16} {ops : List (Op × Clock)}

theorem good_attached (h : XPoint.Attached rows cols type pdur d x)
    (hJ : ∀ valid, J ((TableXPoint.init rows cols type pdur valid).setDriver (some d)).1 .reset) :
    Good J d ⟨x, .reset⟩ := by
  obtain ⟨hwf, hd, valid, ht⟩ := h.spec
  exact ⟨hwf, hd, (congrArg TableXPoint.drv ht :), by dsimp only; rw [ht]; exact hJ valid⟩

theorem along_bench {P : XPoint → Op × Clock → Prop} (hP : Machine.Along XPoint.step P s.matrix ops) :
    Machine.Along (step handle) (fun s i => P s.matrix i) s ops :=
  Machine.Along.lift (fun s => s.matrix) (fun _ _ _ hr => ⟨_, (step_eq_some hr).1⟩) hP

/-- An invariant of the tables and the board that every operation keeps holds after the run. -/
theorem Good.run (hstep : ∀ a k i, J a k → a.pulses.Distinct → a.drv = some d → P a i →
      J (a.step i).1 (k.replay ((a.step i).2.calls.flatMap handle)))
    (h : Good J d s) (hops : ∀ i ∈ ops, i.1.KeepsDriver d)
    (hP : Machine.Along XPoint.step (fun x i => P x.tables i) s.matrix ops) :
    ∃ t log, Bench.run handle s ops = some (t, log) ∧ Good J d t := by
  refine Machine.run_inv (P := fun s i => P s.matrix.tables i ∧ i.1.KeepsDriver d) (fun s i hs hi => ?_) h
    ((along_bench hP).and (.of_forall fun i hi _ => hops i hi))
  obtain ⟨t, rep, ht, hgood, -⟩ := hs.step hstep hi.2 hi.1
  exact ⟨t, rep, ht, hgood⟩

/-- What every operation shows at each instant, from such an invariant, the run shows at every instant. -/
theorem Good.always {Q : TableXPoint → Board → Prop}
    (hstep : ∀ a k i, J a k → a.pulses.Distinct → a.drv = some d → P a i →
      J (a.step i).1 (k.replay ((a.step i).2.calls.flatMap handle)))
    (hQ : ∀ a k i, J a k → a.pulses.Distinct → a.drv = some d → P a i →
      Throughout Board.take (Q (a.step i).1) k ((a.step i).2.calls.flatMap handle))
    (h : Good J d s) (hops : ∀ i ∈ ops, i.1.KeepsDriver d)
    (hP : Machine.Along XPoint.step (fun x i => P x.tables i) s.matrix ops) : Always handle Q s ops := by
  refine Machine.Along.rule (I := Good J d) (P := fun s i => P s.matrix.tables i ∧ i.1.KeepsDriver d)
    (fun s i hs hi => ?_) h ((along_bench hP).and (.of_forall fun i hi _ => hops i hi))
  obtain ⟨t, rep, ht, hgood, htables⟩ := hs.step hstep hi.2 hi.1
  refine ⟨fun t' rep' ht' => ?_, fun r hr => ?_⟩
  · obtain ⟨rfl, rfl⟩ := Prod.mk.inj (Option.some.inj (ht.symm.trans ht'))
    have hq := hQ _ _ i hs.holds hs.distinct hs.drv hi.1
    rw [← htables] at hq
    exact hq
  · obtain rfl := Option.some.inj (ht.symm.trans hr)
    exact hgood

/-- A relation that every event keeps, and `begin` where it is called, is kept by an operation. -/
theorem step_relation {Q : TableXPoint → Prop}
    (hev : ∀ s e t k, J s k → s.pulses.Distinct → e ≠ .begin → Does s e t → J t (k.replay (e.calls.flatMap handle)))
    (hbegin : ∀ s k, J s k → Q s → J s (k.replay (handle .begin))) (hJ : J a k) (hd : a.pulses.Distinct)
    (hdrv : a.drv = some d) (hi : i.1 = .begin → Q a) : J (a.step i).1 (k.replay ((a.step i).2.calls.flatMap handle)) := by
  have hdrv : a.drv.isSome = true := by rw [hdrv]; rfl
  by_cases hop : i.1 = .begin
  · have hstep : a.step i = (a, ⟨none, [.begin]⟩) := by
      rw [TableXPoint.step, hop]
      change (a, Reply.mk none (a.drive [.begin])) = _
      rw [drive, if_pos hdrv]
    rw [hstep, List.flatMap_singleton]
    exact hbegin a k hJ (hi hop)
  · obtain ⟨es, h⟩ := step_events hd i
    refine h.keeps_nil (J := fun cs s => J s (k.replay (cs.flatMap handle))) hdrv hd hJ fun cs s e t hs hds he hdo => ?_
    rw [flatMap_calls, Board.replay_append]
    refine hev s e t _ hs hds (fun heq => hop ?_) hdo
    exact emits_begin (show i.1.Emits .begin from heq ▸ h.emits e he)

/-- The pins that a driver lights, on a bench whose matrix keeps its rules if they were `obeyed`. -/
structure Keeps (obeyed : Prop) (lit : TableXPoint → Int → Prop) (rows cols : UInt8) (type : RelayType) (a : TableXPoint)
    (k : Board) : Prop where
  type : a.type = type
  rows : a.rows = rows
  cols : a.cols = cols
  inRange : a.InRange
  interlocked : obeyed → a.Interlocked
  within : Within lit a k

theorem step_keeps (hl : Lights handle lit type) (h : Keeps obeyed lit rows cols type a k) (hd : a.pulses.Distinct)
    (hdrv : a.drv = some d) (hi : obeyed → a.Obeys i) :
    Keeps obeyed lit rows cols type (a.step i).1 (k.replay ((a.step i).2.calls.flatMap handle)) where
  type := (step_type hd i).trans h.type
  rows := (step_rows hd i).trans h.rows
  cols := (step_cols hd i).trans h.cols
  inRange := step_inRange hd h.inRange i
  interlocked ho := step_interlocked hd h.inRange (h.interlocked ho) (hi ho)
  within := (step_shown hl h.type (by rw [hdrv]; rfl) hd h.inRange h.interlocked hi h.within).2

/-- At every instant of a run the pins that are lit are those of some tables of this size that keep the rules. -/
theorem always_shown (hl : Lights handle lit type) (h : XPoint.Attached rows cols type pdur d x)
    (hops : ∀ i ∈ ops, i.1.KeepsDriver d)
    (hobeys : Machine.Along XPoint.step (fun x i => obeyed → x.tables.Obeys i) x ops) :
    (∃ s log, run handle ⟨x, .reset⟩ ops = some (s, log)) ∧
      Always handle (fun b k => b.rows = rows ∧ b.cols = cols ∧ Shown obeyed lit b k) ⟨x, .reset⟩ ops := by
  have hkeeps : ∀ a k i, Keeps obeyed lit rows cols type a k → a.pulses.Distinct → a.drv = some d → (obeyed → a.Obeys i) →
      Keeps obeyed lit rows cols type (a.step i).1 (k.replay ((a.step i).2.calls.flatMap handle)) :=
    fun _ _ _ hJ hd hdrv hi => step_keeps hl hJ hd hdrv hi
  have hgood : Good (Keeps obeyed lit rows cols type) d ⟨x, .reset⟩ := good_attached h fun valid =>
    ⟨rfl, rfl, rfl, (blank_init.setDriver _).inRange, fun _ => (blank_init.setDriver _).interlocked,
      fun _ hq => absurd hq Bool.false_ne_true⟩
  constructor
  · obtain ⟨s, log, hrun, -⟩ := hgood.run hkeeps hops hobeys
    exact ⟨s, log, hrun⟩
  · refine hgood.always hkeeps (fun a k i hJ hd hdrv hi => ?_) hops hobeys
    have hshown := (step_shown hl hJ.type (by rw [hdrv]; rfl) hd hJ.inRange hJ.interlocked hi hJ.within).1
    exact hshown.imp fun k hk => ⟨(step_rows hd i).trans hJ.rows, (step_cols hd i).trans hJ.cols, hk⟩

end Bench

end Crosspoint
