import Crosspoint.LatchingRelay
import Crosspoint.Theorems.Contacts
import Crosspoint.Theorems.Expiry
import Crosspoint.Theorems.Twins

/-! The LatchingRelay sketch never looks at what `connect` and `disconnect` return. As long as its `loop()` returns in
    time, it need not: both coils are released long before the relays change again, so every call succeeds, and
    `relaysOn` says where the contacts stand. -/

namespace Crosspoint
open PulseTable XPoint

/-- An operation that the sketch calls. -/
def Op.Relays : Op → Prop
  | .begin | .connect _ _ | .disconnect _ _ | .update => True
  | _ => False

namespace LatchingRelay
variable {d : DriverRef} {cs : List DriverCall} {x : XPoint} {s : LatchingRelay} {op : Op} {millis : Clock} {t : Timing}
  {r : UInt8} {on : Bool} {k : Fin MAX_PULSES} {L : Nat}

/-- The matrix of the sketch: latching, without rules, and with contacts that stand as its tables say. -/
structure Serves (d : DriverRef) (cs : List DriverCall) (x : XPoint) : Prop where
  wellFormed : x.WellFormed
  distinct : x.pulses.Distinct
  valid : x.pool.valid = true
  rows : x.rows = 2
  cols : x.cols = 2
  pdur : x.pdur = 20
  drv : x.drv = some d
  lock : ∀ r s, x.tables.lock r s = false
  excl : ∀ c, x.tables.excl c = false
  follows : TableXPoint.Follows cs x.tables

/-- None of the operations that the sketch calls sets a rule or passes a node over. -/
theorem Serves.step (h : Serves d cs x) (hop : op.Relays) (millis : Clock) :
    ∃ x' rep, x.step (op, millis) = some (x', rep) ∧
    x.tables.step (op, millis) = (x'.tables, rep) ∧ Serves d (cs ++ rep.calls) x' := by
  obtain ⟨x', rep, hstep, hwf, ht⟩ := step_matches h.wellFormed (op, millis)
  have hd : x.tables.pulses.Distinct := h.distinct
  have hdrv : x.tables.drv = some d := h.drv
  obtain ⟨es, hes⟩ := TableXPoint.step_events hd (op, millis)
  have hkeeps : op.KeepsDriver d := by
    cases op with
    | setDriver => exact absurd hop id
    | _ => trivial
  have hrules : (x.tables.step (op, millis)).1.lock = x.tables.lock ∧
      (x.tables.step (op, millis)).1.excl = x.tables.excl := by
    refine hes.steps.inv (I := fun b => b.lock = x.tables.lock ∧ b.excl = x.tables.excl) (fun b e b' hb he hdo => ?_)
      ⟨rfl, rfl⟩
    have hem : op.Emits e := hes.emits e he
    refine ⟨(hdo.lock_eq fun A B heq => ?_).trans hb.1, (hdo.excl_eq fun c heq => ?_).trans hb.2⟩
    · rw [heq] at hem
      rw [TableXPoint.emits_lock hem] at hop
      exact hop
    · rw [heq] at hem
      rw [TableXPoint.emits_exclude hem] at hop
      exact hop
  have hroomy : x.tables.Roomy (op, millis) := fun heq => by
    obtain rfl : op = .clearAll := heq
    exact absurd hop id
  have hfollows := TableXPoint.step_follows hd (by rw [hdrv]; rfl) h.follows hroomy
  have hd' := TableXPoint.step_distinct hd (op, millis)
  have hvalid := TableXPoint.step_valid hd (op, millis)
  have hrows := TableXPoint.step_rows hd (op, millis)
  have hcols := TableXPoint.step_cols hd (op, millis)
  have hpdur := TableXPoint.step_pdur hd (op, millis)
  have hdrv' := TableXPoint.step_drv (i := (op, millis)) hd hdrv hkeeps
  rw [ht] at hrules hfollows hd' hvalid hrows hcols hpdur hdrv'
  exact ⟨x', rep, hstep, ht, hwf, hd', hvalid.trans h.valid, hrows.trans h.rows, hcols.trans h.cols,
    hpdur.trans h.pdur, hdrv', fun r s => by rw [hrules.1, h.lock], fun c => by rw [hrules.2, h.excl], hfollows⟩

theorem call_eq {rep : Reply} {x' : XPoint}
    (h : s.matrix.step (op, TimedOp.clock ⟨op, t.wait, t.takes⟩ (s.now + t.wait)) = some (x', rep)) : s.call t op = some
      ({ s with matrix := x', now := TimedOp.time ⟨op, t.wait, t.takes⟩ (s.now + t.wait) rep.calls.length },
        ((op, TimedOp.clock ⟨op, t.wait, t.takes⟩ (s.now + t.wait)), rep)) := by
  rw [call, h]
  rfl

/-- Without rules every node is let through. -/
theorem Serves.blocked (h : Serves d cs x) (r c : UInt8) : x.tables.blocked r c = false := by
  simp [TableXPoint.blocked, TableXPoint.interlocked, TableXPoint.exclusiveTaken, h.lock, h.excl]

/-- A relay that has a slot is changed. -/
theorem Serves.step_change (h : Serves d cs x) (hr : r < 2) (hconn : x.tables.conn r r = on)
    (halloc : x.pulses.alloc r r = some k) (millis : Clock) : x.tables.step (change on r, millis) =
      ((x.tables.setConn r r (!on)).setPulses (x.pulses.put k ⟨r, r, millis 2, true⟩),
        ⟨some true, [.setNodeHardware r r (!on), .commitPhysicalUpdates]⟩) := by
  have htype : x.tables.type = .latchingDualCoil := h.follows.type
  have hin : x.tables.valid = true ∧ r < x.rows ∧ r < x.cols := by
    rw [h.rows, h.cols]
    exact ⟨h.valid, hr, hr⟩
  have hdrv : x.tables.drv.isSome = true := by
    rw [show x.tables.drv = some d from h.drv]
    rfl
  have hswitch (on : Bool) : x.tables.switchNode millis r r on =
      ((x.tables.setConn r r on).setPulses (x.pulses.put k ⟨r, r, millis 2, true⟩),
        ⟨some true, [.setNodeHardware r r on, .commitPhysicalUpdates]⟩) := TableXPoint.switchNode_taken htype hdrv halloc
  cases on with
  | false => simp [LatchingRelay.change, TableXPoint.step, TableXPoint.connect, hin, h.blocked, hconn, hswitch]
  | true => simp [LatchingRelay.change, TableXPoint.step, TableXPoint.disconnect, hin, hconn, hswitch]

theorem relays_change (on : Bool) (r : UInt8) : (change on r).Relays := by
  cases on <;> trivial

/-- What a call that changes the relay of node `(r, r)` leaves. -/
structure Changed (d : DriverRef) (cs : List DriverCall) (r : UInt8) (on : Bool) (k : Fin MAX_PULSES) (s s' : LatchingRelay)
    (e : (Op × Clock) × Reply) : Prop where
  serves : Serves d (cs ++ e.2.calls) s'.matrix
  ret : e.2.ret = some true
  conn : s'.matrix.tables.conn = setEntry s.matrix.tables.conn r r (!on)
  pulses : s'.matrix.pulses = s.matrix.pulses.put k ⟨r, r, UInt32.ofNat s'.now, true⟩
  later : s.now ≤ s'.now
  lastToggle : s'.lastToggle = s.lastToggle
  relaysOn : s'.relaysOn = s.relaysOn

theorem Serves.call_change (h : Serves d cs s.matrix) (hr : r < 2) (hconn : s.matrix.tables.conn r r = on)
    (halloc : s.matrix.pulses.alloc r r = some k) (t : Timing) :
    ∃ s' e, s.call t (change on r) = some (s', e) ∧ Changed d cs r on k s s' e := by
  let i : TimedOp := ⟨change on r, t.wait, t.takes⟩
  obtain ⟨x', rep, hstep, ht, hserves⟩ := h.step (relays_change on r) (i.clock (s.now + t.wait))
  rw [h.step_change hr hconn halloc] at ht
  obtain ⟨htables, rfl⟩ := Prod.mk.inj ht
  have hconn' : x'.tables.conn = setEntry s.matrix.tables.conn r r (!on) := (congrArg TableXPoint.conn htables).symm
  have hpulses : x'.pulses = s.matrix.pulses.put k ⟨r, r, UInt32.ofNat (i.time (s.now + t.wait) 2), true⟩ :=
    (congrArg TableXPoint.pulses htables).symm
  exact ⟨_, _, call_eq hstep, hserves, rfl, hconn', hpulses, (Nat.le_add_right _ _).trans TimedOp.le_time, rfl, rfl⟩

/-- One pulse in flight leaves a slot for another node. -/
theorem alloc_second {p : PulseTable} {c r' c' : UInt8} {t0 : UInt32} (hp : p.Idle) (hne : ¬(r' = r ∧ c' = c)) :
    ∃ k', alloc (p.put k ⟨r, c, t0, true⟩) r' c' = some k' := by
  have hpend : pending (p.put k ⟨r, c, t0, true⟩) r' c' = false := Bool.eq_false_iff.mpr fun h => by
    rcases (pending_put (.inl (hp k)) rfl).mp h with heq | hold
    · exact hne heq
    · exact Bool.false_ne_true (hp.pending.symm.trans hold)
  rw [alloc_eq, hpend]
  cases hf : firstFree (p.put k ⟨r, c, t0, true⟩) with
  | some k' => exact ⟨k', rfl⟩
  | none =>
    obtain ⟨j, hj⟩ := exists_ne k
    have hon := firstFree_eq_none.mp hf j
    rw [Vector.get_put, if_neg hj.symm, hp j] at hon
    cases hon

/-- Exactly the two relays of the sketch are connected, or none. -/
def Shows (on : Bool) (x : XPoint) : Prop := ∀ r c, x.tables.conn r c = true ↔ on = true ∧ r = c ∧ r < 2

theorem lt_two_iff {r : UInt8} : r < 2 ↔ r = 0 ∨ r = 1 := by
  simp only [UInt8.lt_iff_toNat_lt, ← UInt8.toNat_inj, UInt8.toNat_ofNat]
  omega

/-- With no pulse in flight both relays are changed. -/
theorem Serves.call_changes (h : Serves d cs s.matrix) (hidle : s.matrix.pulses.Idle) (hshows : Shows on s.matrix)
    (t₁ t₂ : Timing) : ∃ s₁ e₁ s₂ e₂, s.call t₁ (change on 0) = some (s₁, e₁) ∧ s₁.call t₂ (change on 1) = some (s₂, e₂) ∧
      Serves d (cs ++ e₁.2.calls ++ e₂.2.calls) s₂.matrix ∧ Shows (!on) s₂.matrix ∧
      e₁.2.ret = some true ∧ e₂.2.ret = some true ∧
      s₂.lastToggle = s.lastToggle ∧ s₂.relaysOn = s.relaysOn ∧ s.now ≤ s₂.now ∧ ∀ j : Fin MAX_PULSES,
        (s₂.matrix.pulses.get j).on = true → ∃ B, (s₂.matrix.pulses.get j).t0 = UInt32.ofNat B ∧ s.now ≤ B ∧
          B ≤ s₂.now := by
  have hconn : ∀ r, r < 2 → s.matrix.tables.conn r r = on := fun r hr => by
    refine Bool.eq_iff_iff.mpr ((hshows r r).trans ?_)
    simp [hr]
  obtain ⟨k, hk⟩ := hidle.alloc (r := 0) (c := 0)
  obtain ⟨s₁, e₁, hcall₁, h₁⟩ := h.call_change (by decide) (hconn 0 (by decide)) hk t₁
  obtain ⟨k', hk'⟩ : ∃ k', s₁.matrix.pulses.alloc 1 1 = some k' := by
    rw [h₁.pulses]
    exact alloc_second hidle (by decide)
  have hconn₁ : s₁.matrix.tables.conn 1 1 = on := by
    rw [h₁.conn, setEntry_ne (by decide)]
    exact hconn 1 (by decide)
  obtain ⟨s₂, e₂, hcall₂, h₂⟩ := h₁.serves.call_change (by decide) hconn₁ hk' t₂
  refine ⟨s₁, e₁, s₂, e₂, hcall₁, hcall₂, h₂.serves, fun r c => ?_, h₁.ret, h₂.ret, h₂.lastToggle.trans h₁.lastToggle,
    h₂.relaysOn.trans h₁.relaysOn, h₁.later.trans h₂.later, fun j hj => ?_⟩
  · rw [h₂.conn, h₁.conn]
    by_cases h1 : r = 1 ∧ c = 1
    · rcases h1 with ⟨rfl, rfl⟩
      simp
    rw [setEntry_ne h1]
    by_cases h0 : r = 0 ∧ c = 0
    · rcases h0 with ⟨rfl, rfl⟩
      simp
    rw [setEntry_ne h0, hshows r c]
    have hnot : ¬(r = c ∧ r < 2) := fun hrc => by
      rcases hrc with ⟨rfl, hlt⟩
      rcases lt_two_iff.mp hlt with rfl | rfl
      · exact h0 ⟨rfl, rfl⟩
      · exact h1 ⟨rfl, rfl⟩
    exact ⟨fun h => absurd h.2 hnot, fun h => absurd h.2 hnot⟩
  · rw [h₂.pulses, Vector.get_put] at hj ⊢
    split
    · exact ⟨s₂.now, rfl, h₁.later.trans h₂.later, le_refl _⟩
    · rename_i hne
      rw [if_neg hne, h₁.pulses, Vector.get_put] at hj
      rw [h₁.pulses, Vector.get_put]
      split
      · exact ⟨s₁.now, rfl, h₁.later, h₂.later⟩
      · rename_i hne'
        rw [if_neg hne', hidle j] at hj
        cases hj

/-! ### One `loop()` -/

/-- The wrapping subtraction of two readings against a bound. -/
theorem elapsed_iff {B T : Nat} {n : UInt32} (hB : B ≤ T) :
    UInt32.ofNat T - UInt32.ofNat B ≥ n ↔ n.toNat ≤ (T - B) % 4294967296 := by
  have hsub : (UInt32.ofNat T - UInt32.ofNat B).toNat = (T - B) % 4294967296 := by
    rw [UInt32.toNat_sub, UInt32.toNat_ofNat', UInt32.toNat_ofNat']
    omega
  rw [ge_iff_le, UInt32.le_iff_toNat_le, hsub]

section Loop
variable {s₁ s₂ s₃ : LatchingRelay} {t : LoopTimes} {e₁ e₂ e₃ : (Op × Clock) × Reply}

theorem loop_kept (hupdate : s.call t.update .update = some (s₁, e₁))
    (h : ¬UInt32.ofNat (s₁.now + t.check) - s₁.lastToggle ≥ 3000) :
    s.loop t = some ({ s₁ with now := s₁.now + t.check }, ⟨[e₁], s₁.now + t.check, none⟩) := by
  simp only [loop, hupdate, Option.bind_eq_bind, Option.bind_some, if_neg h]
  rfl

theorem loop_toggled (hupdate : s.call t.update .update = some (s₁, e₁))
    (h : UInt32.ofNat (s₁.now + t.check) - s₁.lastToggle ≥ 3000)
    (hfirst : call
      { s₁ with lastToggle := UInt32.ofNat (s₁.now + t.check + t.stamp), now := s₁.now + t.check + t.stamp }
      t.first (change s₁.relaysOn 0) = some (s₂, e₂)) (hsecond : s₂.call t.second (change s₁.relaysOn 1) = some (s₃, e₃)) :
    s.loop t = some ({ s₃ with relaysOn := !s₁.relaysOn },
      ⟨[e₁, e₂, e₃], s₁.now + t.check, some (s₁.now + t.check + t.stamp)⟩) := by
  simp only [loop, hupdate, Option.bind_eq_bind, Option.bind_some, if_pos h, hfirst, hsecond]
  rfl

/-- Every call of the sketch succeeds, and takes no time back. -/
theorem Serves.call_some (h : Serves d cs s.matrix) (hop : op.Relays) (t : Timing) :
    ∃ s' e, s.call t op = some (s', e) ∧ Serves d (cs ++ e.2.calls) s'.matrix ∧ s.now + t.wait ≤ s'.now := by
  obtain ⟨x', rep, hstep, -, hserves⟩ := h.step hop _
  exact ⟨_, _, call_eq hstep, hserves, TimedOp.le_time⟩

theorem update_keeps (a : TableXPoint) (millis : Clock) :
    (a.update millis).1.conn = a.conn ∧ (a.update millis).2.ret = none := by
  unfold TableXPoint.update
  split
  · exact ⟨rfl, rfl⟩
  · generalize a.pulses.expire (millis 0) a.pdur = u
    exact ⟨rfl, rfl⟩

theorem Serves.call_update (h : Serves d cs s.matrix) (t : Timing) : ∃ s' e, s.call t .update = some (s', e) ∧
    Serves d (cs ++ e.2.calls) s'.matrix ∧ e.2.ret = none ∧ s'.matrix.tables.conn = s.matrix.tables.conn ∧
      s'.lastToggle = s.lastToggle ∧ s'.relaysOn = s.relaysOn ∧ s.now + t.wait ≤ s'.now ∧ ∀ j : Fin MAX_PULSES,
        s'.matrix.pulses.get j = expired (UInt32.ofNat (s.now + t.wait)) 20 (s.matrix.pulses.get j) := by
  let i : TimedOp := ⟨.update, t.wait, t.takes⟩
  obtain ⟨x', rep, hstep, ht, hserves⟩ := h.step (show Op.Relays .update from trivial) (i.clock (s.now + t.wait))
  have ht : s.matrix.tables.update (i.clock (s.now + t.wait)) = (x'.tables, rep) := ht
  obtain ⟨hconn, hret⟩ := update_keeps s.matrix.tables (i.clock (s.now + t.wait))
  have hpulses : (s.matrix.tables.update (i.clock (s.now + t.wait))).1.pulses =
      (s.matrix.pulses.expire (UInt32.ofNat (s.now + t.wait)) s.matrix.pdur).1 := TableXPoint.update_pulses h.follows.type
  rw [ht] at hconn hret hpulses
  have hpulses : x'.pulses = (s.matrix.pulses.expire (UInt32.ofNat (s.now + t.wait)) s.matrix.pdur).1 := hpulses
  refine ⟨_, _, call_eq hstep, hserves, hret, hconn, rfl, rfl, TimedOp.le_time, fun j => ?_⟩
  rw [hpulses, h.pdur, expire_get]

/-- The comparison comes within the time that `loop()` may take. -/
theorem InTime.checked (hin : s.InTime t) (hserves : Serves d cs s₁.matrix)
    (hupdate : s.call t.update .update = some (s₁, e₁)) : s₁.now + t.check ≤ s.now + t.update.wait + 1490 := by
  by_cases h : UInt32.ofNat (s₁.now + t.check) - s₁.lastToggle ≥ 3000
  · let s₁' : LatchingRelay :=
      { s₁ with lastToggle := UInt32.ofNat (s₁.now + t.check + t.stamp), now := s₁.now + t.check + t.stamp }
    have hserves' : Serves d cs s₁'.matrix := hserves
    obtain ⟨s₂, e₂, hfirst, hserves₂, hle₂⟩ := hserves'.call_some (relays_change s₁.relaysOn 0) t.first
    obtain ⟨s₃, e₃, hsecond, -, hle₃⟩ := hserves₂.call_some (relays_change s₁.relaysOn 1) t.second
    have hend := hin.2 _ _ (loop_toggled hupdate h hfirst hsecond)
    have hend : s₃.now ≤ s.now + t.update.wait + 1490 := hend
    have hle₂ : s₁.now + t.check + t.stamp + t.first.wait ≤ s₂.now := hle₂
    omega
  · exact hin.2 _ _ (loop_kept hupdate h)

end Loop

/-- Between two calls of `loop()`: the relays stand as `relaysOn` says, the last change is not yet due to be undone, and the
    pulses in flight have started around it and not long ago. -/
structure Steady (d : DriverRef) (L : Nat) (cs : List DriverCall) (s : LatchingRelay) : Prop where
  serves : Serves d cs s.matrix
  shows : Shows s.relaysOn s.matrix
  stamp : s.lastToggle = UInt32.ofNat L
  since : L ≤ s.now ∧ s.now < L + 3000
  young : ∀ j : Fin MAX_PULSES, (s.matrix.pulses.get j).on = true → ∃ B, (s.matrix.pulses.get j).t0 = UInt32.ofNat B ∧
    B ≤ s.now ∧ s.now ≤ B + 1510 ∧ L ≤ B + 1490 ∧ B ≤ L + 1490

/-- A pulse that `update` leaves in flight started less than 20 ms before. -/
theorem Steady.survives (h : Steady d L cs s) {wait : Nat} (hwait : wait < 2147483648) {j : Fin MAX_PULSES}
    (hj : (expired (UInt32.ofNat (s.now + wait)) 20 (s.matrix.pulses.get j)).on = true) :
    ∃ B, (expired (UInt32.ofNat (s.now + wait)) 20 (s.matrix.pulses.get j)).t0 = UInt32.ofNat B ∧
      B ≤ s.now ∧ s.now + wait < B + 20 ∧ L ≤ B + 1490 ∧ B ≤ L + 1490 := by
  obtain ⟨hold, hdue⟩ := expired_on.mp hj
  obtain ⟨B, ht0, hB, hold', hLB, hBL⟩ := h.young j hold
  have hage : due (UInt32.ofNat (s.now + wait)) 20 (s.matrix.pulses.get j) = true ↔
      (20 : UInt16).toNat ≤ (s.now + wait - B) % 4294967296 := due_iff (by omega) ht0
  rw [hdue, Nat.mod_eq_of_lt (by omega)] at hage
  have hlt : ¬(20 : UInt16).toNat ≤ s.now + wait - B := fun hle => Bool.false_ne_true (hage.mpr hle)
  rw [expired_of_not fun h => Bool.false_ne_true (hdue.symm.trans h.2)]
  refine ⟨B, ht0, hB, ?_, hLB, hBL⟩
  change ¬20 ≤ _ at hlt
  omega

theorem Steady.loop {t : LoopTimes} (h : Steady d L cs s) (hin : s.InTime t) : ∃ s' reply, s.loop t = some (s', reply) ∧
    Steady d (reply.toggled.getD L) (cs ++ driverCalls reply.calls) s' ∧ Toggles L s s' reply ∧
    ∀ e ∈ reply.calls, e.2.ret ≠ some false := by
  obtain ⟨s₁, e₁, hupdate, hserves, hret, hconn, hstamp, hon, hle, hexpired⟩ := h.serves.call_update t.update
  have hchecked := hin.checked hserves hupdate
  have hwait := hin.1
  have hshows : Shows s₁.relaysOn s₁.matrix := fun r c => by rw [hon, hconn, h.shows]
  have hyoung : ∀ j : Fin MAX_PULSES, (s₁.matrix.pulses.get j).on = true →
      ∃ B, (s₁.matrix.pulses.get j).t0 = UInt32.ofNat B ∧
        B ≤ s.now ∧ s.now + t.update.wait < B + 20 ∧ L ≤ B + 1490 ∧ B ≤ L + 1490 := fun j hj => by
    rw [hexpired] at hj ⊢
    exact h.survives hwait hj
  have hcond : UInt32.ofNat (s₁.now + t.check) - s₁.lastToggle ≥ 3000 ↔ L + 3000 ≤ s₁.now + t.check := by
    have hbounds := h.since
    rw [hstamp, h.stamp, elapsed_iff (by omega), Nat.mod_eq_of_lt (by omega)]
    change 3000 ≤ _ ↔ _
    omega
  by_cases htoggle : L + 3000 ≤ s₁.now + t.check
  · have hidle : s₁.matrix.pulses.Idle := fun j => Bool.eq_false_iff.mpr fun hj => by
      obtain ⟨B, -, -, hB, -, hBL⟩ := hyoung j hj
      omega
    let s₁' : LatchingRelay :=
      { s₁ with lastToggle := UInt32.ofNat (s₁.now + t.check + t.stamp), now := s₁.now + t.check + t.stamp }
    have hserves' : Serves d (cs ++ e₁.2.calls) s₁'.matrix := hserves
    obtain ⟨s₂, e₂, s₃, e₃, hfirst, hsecond, hserves₃, hshows₃, hret₂, hret₃, hstamp₃, -, hle₃, hstarted⟩ :=
      hserves'.call_changes hidle hshows t.first t.second
    have hloop := loop_toggled hupdate (hcond.mpr htoggle) hfirst hsecond
    have hend := hin.2 _ _ hloop
    have hend : s₃.now ≤ s.now + t.update.wait + 1490 := hend
    have hle₃ : s₁.now + t.check + t.stamp ≤ s₃.now := hle₃
    have htoggles : Toggles L s { s₃ with relaysOn := !s₁.relaysOn }
        ⟨[e₁, e₂, e₃], s₁.now + t.check, some (s₁.now + t.check + t.stamp)⟩ := by
      refine ⟨⟨?_, ?_⟩, ?_, ?_, ?_⟩
      · change s.now ≤ s₁.now + t.check
        omega
      · change s₁.now + t.check ≤ s₃.now
        omega
      · rw [if_pos htoggle, hon]
      · simp [hon]
      · intro stamp hstamp
        obtain rfl := Option.some.inj hstamp
        exact ⟨Nat.le_add_right _ _, hle₃, hstamp₃⟩
    refine ⟨_, _, hloop, ⟨?_, hshows₃, hstamp₃, ⟨hle₃, ?_⟩, fun j hj => ?_⟩, htoggles, ?_⟩
    · simpa [driverCalls, List.append_assoc] using hserves₃
    · change s₃.now < s₁.now + t.check + t.stamp + 3000
      omega
    · obtain ⟨B, ht0, hB, hB'⟩ := hstarted j hj
      have hB : s₁.now + t.check + t.stamp ≤ B := hB
      change ∃ B, _ ∧ B ≤ s₃.now ∧ s₃.now ≤ B + 1510 ∧ s₁.now + t.check + t.stamp ≤ B + 1490 ∧
        B ≤ s₁.now + t.check + t.stamp + 1490
      exact ⟨B, ht0, hB', by omega, by omega, by omega⟩
    · simp [hret, hret₂, hret₃]
  · have hbounds := h.since
    have hstays : Toggles L s { s₁ with now := s₁.now + t.check } ⟨[e₁], s₁.now + t.check, none⟩ := by
      refine ⟨⟨?_, le_refl _⟩, ?_, ?_, fun stamp hstamp => ?_⟩
      · change s.now ≤ s₁.now + t.check
        omega
      · rw [if_neg htoggle, hon]
      · simp [hon]
      · cases hstamp
    refine ⟨_, _, loop_kept hupdate fun hc => htoggle (hcond.mp hc),
      ⟨?_, hshows, hstamp.trans h.stamp, ?_, fun j hj => ?_⟩, hstays, ?_⟩
    · simpa [driverCalls] using hserves
    · change L ≤ s₁.now + t.check ∧ s₁.now + t.check < L + 3000
      omega
    · obtain ⟨B, ht0, hB, hB', hLB, hBL⟩ := hyoung j hj
      change ∃ B, _ ∧ B ≤ s₁.now + t.check ∧ s₁.now + t.check ≤ B + 1510 ∧ L ≤ B + 1490 ∧ B ≤ L + 1490
      exact ⟨B, ht0, by omega, by omega, hLB, hBL⟩
    · simp [hret]

/-! ### The sketch -/

theorem serves_attached (h : Attached 2 2 .latchingDualCoil 20 d x) :
    Serves d [] x ∧ Shows false x ∧ x.pulses.Idle := by
  obtain ⟨hwf, hd, valid, ht⟩ := h.spec
  have hb : x.tables.Blank := ht ▸ TableXPoint.blank_init.setDriver _
  have htype : x.tables.type = .latchingDualCoil := congrArg TableXPoint.type ht
  refine ⟨⟨hwf, hd, ?_, congrArg TableXPoint.rows ht, congrArg TableXPoint.cols ht, congrArg TableXPoint.pdur ht,
    congrArg TableXPoint.drv ht, hb.lock, hb.excl, htype, fun r c => ?_⟩, fun r c => ?_, fun j => ?_⟩
  · exact h.valid.resolve_right (by decide)
  · rw [hb.conn, hb.pulses, TableXPoint.pending_init]
    rfl
  · simp [hb.conn]
  · have hp : x.pulses = PulseTable.init := hb.pulses
    rw [hp, idle_init j]

theorem setup_steady (d : DriverRef) (buf : Vector UInt32 (bufWords 2 2).toNat) (now : Nat) (t : SetupTimes) :
    ∃ s s₀ began, new buf now = some s ∧ s.setup d t = some (s₀, began) ∧ (∀ e ∈ began, e.2.ret ≠ some false) ∧
      (s₀.now ≤ now + 1490 → Steady d s₀.now (driverCalls began) s₀) := by
  obtain ⟨x, hx, hbuilt⟩ := exists_static 2 2 buf .latchingDualCoil 20
  obtain ⟨hserves, hshows, hidle⟩ := serves_attached (d := d) ⟨x, hbuilt, rfl⟩
  let s : LatchingRelay := ⟨(x.setDriver (some d)).1, 0, false, now⟩
  obtain ⟨s₁, e₁, hbegin, hserves₁, hle₁⟩ := Serves.call_some (s := s) hserves (show Op.Relays .begin from trivial) t.begin
  have hsame : s₁.matrix = s.matrix := by
    obtain ⟨rfl, -⟩ := Prod.mk.inj (Option.some.inj (hbegin.symm.trans (call_eq rfl)))
    rfl
  have hret₁ : e₁.2.ret = none := by
    obtain ⟨-, rfl⟩ := Prod.mk.inj (Option.some.inj (hbegin.symm.trans (call_eq rfl)))
    rfl
  obtain ⟨s₂, e₂, s₃, e₃, hfirst, hsecond, hserves₃, hshows₃, hret₂, hret₃, -, -, hle₃, hstarted⟩ :=
    hserves₁.call_changes (by rw [hsame]; exact hidle) (by rw [hsame]; exact hshows) t.first t.second
  have hsetup : setup d t ⟨x, 0, false, now⟩ =
      some (⟨s₃.matrix, UInt32.ofNat (s₃.now + t.stamp), true, s₃.now + t.stamp⟩, [e₁, e₂, e₃]) := by
    have hbegin : call ⟨(x.setDriver (some d)).1, 0, false, now⟩ t.begin .begin = some (s₁, e₁) := hbegin
    have hfirst : s₁.call t.first (.connect 0 0) = some (s₂, e₂) := hfirst
    have hsecond : s₂.call t.second (.connect 1 1) = some (s₃, e₃) := hsecond
    simp only [setup, Option.bind_eq_bind, hbegin, Option.bind_some, hfirst, hsecond]
    rfl
  refine ⟨_, _, _, by rw [new, hx]; rfl, hsetup, by simp [hret₁, hret₂, hret₃], fun hend => ?_⟩
  have hend : s₃.now + t.stamp ≤ now + 1490 := hend
  have hle₁ : now + t.begin.wait ≤ s₁.now := hle₁
  refine ⟨?_, hshows₃, rfl, ⟨le_refl _, Nat.lt_add_of_pos_right (by decide)⟩, fun j hj => ?_⟩
  · simpa [driverCalls, List.append_assoc] using hserves₃
  · obtain ⟨B, ht0, hB, hB'⟩ := hstarted j hj
    change ∃ B, _ ∧ B ≤ s₃.now + t.stamp ∧ s₃.now + t.stamp ≤ B + 1510 ∧ s₃.now + t.stamp ≤ B + 1490 ∧
      B ≤ s₃.now + t.stamp + 1490
    exact ⟨B, ht0, by omega, by omega, by omega, by omega⟩

theorem lastStamp_concat {start : Nat} {log : List (LoopTimes × LoopReply)} {e : LoopTimes × LoopReply} :
    lastStamp start (log ++ [e]) = e.2.toggled.getD (lastStamp start log) := by
  rw [lastStamp, Traces.lastWhere_concat]
  cases h : e.2.toggled with
  | none =>
    simp only [Option.isSome_none, Bool.false_eq_true, ↓reduceIte, Option.getD_none]
    rfl
  | some stamp => simp [h]

theorem loopCalls_concat {log : List (LoopTimes × LoopReply)} {e : LoopTimes × LoopReply} :
    loopCalls (log ++ [e]) = loopCalls log ++ e.2.calls := Traces.flatMap_concat

/-- Whatever the buffer held and whenever the sketch starts, as long as `setup()` and every `loop()` return within 1490
    ms and `loop()` is called again in time: every call on the matrix succeeds, `relaysOn` flips in exactly the passes
    that compare the clock 3000 ms or more after it last did, and after each the two contacts are closed exactly if
    `relaysOn` says so. -/
theorem run_toggles (d : DriverRef) (buf : Vector UInt32 (bufWords 2 2).toNat) (now : Nat) (t : SetupTimes)
    (passes : List LoopTimes) : ∃ s s₀ began, new buf now = some s ∧ s.setup d t = some (s₀, began) ∧
      (s₀.now ≤ now + 1490 → Machine.Along loop InTime s₀ passes → ∃ s' log, s₀.run passes = some (s', log) ∧
        (∀ e ∈ began ++ loopCalls log, e.2.ret ≠ some false) ∧
        (∀ pre pass post s₁ log₁ s₂ reply, passes = pre ++ pass :: post → s₀.run pre = some (s₁, log₁) →
          s₁.loop pass = some (s₂, reply) → Toggles (lastStamp s₀.now log₁) s₁ s₂ reply) ∧
        ∀ r c, contact (driverCalls (began ++ loopCalls log)) r c = .closed ↔ s'.relaysOn = true ∧ r = c ∧ r < 2) := by
  obtain ⟨s, s₀, began, hnew, hsetup, hbegan, hsteady⟩ := setup_steady d buf now t
  refine ⟨s, s₀, began, hnew, hsetup, fun hend hin => ?_⟩
  let I (log : List (LoopTimes × LoopReply)) (s : LatchingRelay) : Prop :=
    Steady d (lastStamp s₀.now log) (driverCalls (began ++ loopCalls log)) s ∧
      ∀ e ∈ began ++ loopCalls log, e.2.ret ≠ some false
  have hstart : I [] s₀ := by
    have hnone : lastStamp s₀.now [] = s₀.now := rfl
    refine ⟨?_, ?_⟩
    · simpa [loopCalls, hnone] using hsteady hend
    · simpa [loopCalls] using hbegan
  have hstep : ∀ log s pass, I log s → s.InTime pass → ∃ s' reply, s.loop pass = some (s', reply) ∧
      I (log ++ [(pass, reply)]) s' ∧ Toggles (lastStamp s₀.now log) s s' reply := by
    rintro log s pass ⟨hs, hret⟩ hin
    obtain ⟨s', reply, hloop, hs', htoggles, hret'⟩ := hs.loop hin
    refine ⟨s', reply, hloop, ⟨?_, ?_⟩, htoggles⟩
    · rw [lastStamp_concat, loopCalls_concat, ← List.append_assoc, driverCalls, List.flatMap_append]
      exact hs'
    · rw [loopCalls_concat, ← List.append_assoc]
      exact List.forall_mem_append.mpr ⟨hret, hret'⟩
  obtain ⟨s', log, hrun, hs', hret⟩ := Machine.run_rule (I := I) (fun log s pass hI hin => by
    obtain ⟨s', reply, hloop, hI', -⟩ := hstep log s pass hI hin
    exact ⟨s', reply, hloop, hI'⟩) hstart hin
  refine ⟨s', log, hrun, hret, fun pre pass post s₁ log₁ s₂ reply hpasses hrun₁ hloop => ?_, fun r c => ?_⟩
  · exact Machine.run_each (R := fun log s s' reply => Toggles (lastStamp s₀.now log) s s' reply) hstep hstart
      (hpasses ▸ hin) hrun₁ hloop
  · rw [hs'.serves.follows.contacts r c, ← hs'.shows r c]
    cases s'.matrix.tables.conn r c <;> cases s'.matrix.tables.pulses.pending r c <;> simp [TableXPoint.standing]

theorem call_still {s' : LatchingRelay} {e : (Op × Clock) × Reply} (ht : ∀ k, t.takes k = 0)
    (h : s.call t op = some (s', e)) : s'.now = s.now + t.wait := by
  obtain ⟨m, -, hm⟩ := Option.map_eq_some_iff.mp h
  obtain ⟨rfl, -⟩ := Prod.mk.inj hm
  exact TimedOp.time_still ht

/-- With a driver that takes no time, only the waits count. -/
theorem inTime_still {t : LoopTimes} (hupdate : ∀ k, t.update.takes k = 0) (hfirst : ∀ k, t.first.takes k = 0)
    (hsecond : ∀ k, t.second.takes k = 0) (hwait : t.update.wait < 2147483648)
    (hpass : t.check + t.stamp + t.first.wait + t.second.wait ≤ 1490) : s.InTime t := by
  refine ⟨hwait, fun s' reply h => ?_⟩
  simp only [loop, Option.bind_eq_bind, Option.bind_eq_some_iff] at h
  obtain ⟨⟨s₁, e₁⟩, h₁, h⟩ := h
  have hnow₁ := call_still hupdate h₁
  dsimp only at h
  split at h
  · simp only [Option.bind_eq_some_iff] at h
    obtain ⟨⟨s₂, e₂⟩, h₂, ⟨s₃, e₃⟩, h₃, h⟩ := h
    have hnow₂ : s₂.now = s₁.now + t.check + t.stamp + t.first.wait := call_still hfirst h₂
    have hnow₃ : s₃.now = s₂.now + t.second.wait := call_still hsecond h₃
    obtain ⟨rfl, -⟩ := Prod.mk.inj (Option.some.inj h)
    change s₃.now ≤ _
    omega
  · obtain ⟨rfl, -⟩ := Prod.mk.inj (Option.some.inj h)
    change s₁.now + t.check ≤ _
    omega

theorem setup_still {d : DriverRef} {t : SetupTimes} {s₀ : LatchingRelay} {began : List ((Op × Clock) × Reply)}
    (hbegin : ∀ k, t.begin.takes k = 0) (hfirst : ∀ k, t.first.takes k = 0) (hsecond : ∀ k, t.second.takes k = 0)
    (h : s.setup d t = some (s₀, began)) : s₀.now = s.now + t.begin.wait + t.first.wait + t.second.wait + t.stamp := by
  simp only [setup, Option.bind_eq_bind, Option.bind_eq_some_iff] at h
  obtain ⟨⟨s₁, e₁⟩, h₁, ⟨s₂, e₂⟩, h₂, ⟨s₃, e₃⟩, h₃, h⟩ := h
  have hnow₁ : s₁.now = LatchingRelay.now { s with matrix := (s.matrix.setDriver (some d)).1 } + t.begin.wait :=
    call_still hbegin h₁
  have hnow₂ : s₂.now = s₁.now + t.first.wait := call_still hfirst h₂
  have hnow₃ : s₃.now = s₂.now + t.second.wait := call_still hsecond h₃
  obtain ⟨rfl, -⟩ := Prod.mk.inj (Option.some.inj h)
  change s₃.now + t.stamp = _
  rw [hnow₃, hnow₂, hnow₁]

/-- The relays close, open after three seconds and close again, and the clock rolls over in between. -/
theorem run_toggles_rollover :
    let quick : Timing := ⟨0, fun _ => 0⟩
    let pass (wait : Nat) : LoopTimes := ⟨⟨wait, fun _ => 0⟩, 1, 1, quick, ⟨2, fun _ => 0⟩⟩
    let buf : Vector UInt32 (bufWords 2 2).toNat := Vector.replicate _ 0xFFFFFFFF
    ∃ s s₀ began s' log, new buf 4294967000 = some s ∧ s.setup 0 ⟨quick, quick, ⟨1, fun _ => 0⟩, 1⟩ = some (s₀, began) ∧
      s₀.run [pass 10, pass 15, pass 3000, pass 30, pass 3000] = some (s', log) ∧
      (∀ e ∈ began ++ loopCalls log, e.2.ret ≠ some false) ∧
      (∀ pre i post s₁ log₁ s₂ reply, [pass 10, pass 15, pass 3000, pass 30, pass 3000] = pre ++ i :: post →
        s₀.run pre = some (s₁, log₁) → s₁.loop i = some (s₂, reply) → Toggles (lastStamp s₀.now log₁) s₁ s₂ reply) ∧
      ∀ r c, contact (driverCalls (began ++ loopCalls log)) r c = .closed ↔ s'.relaysOn = true ∧ r = c ∧ r < 2 := by
  intro quick pass buf
  obtain ⟨s, s₀, began, hnew, hsetup, hrun⟩ := run_toggles 0 buf 4294967000 ⟨quick, quick, ⟨1, fun _ => 0⟩, 1⟩
    [pass 10, pass 15, pass 3000, pass 30, pass 3000]
  have hend : s₀.now ≤ 4294967000 + 1490 := by
    obtain ⟨x, -, rfl⟩ := Option.map_eq_some_iff.mp hnew
    have hnow : s₀.now = 4294967000 + 0 + 0 + 1 + 1 := setup_still (fun _ => rfl) (fun _ => rfl) (fun _ => rfl) hsetup
    omega
  have hpass : ∀ i ∈ [pass 10, pass 15, pass 3000, pass 30, pass 3000], ∀ s, InTime s i := by
    simp only [List.forall_mem_cons, List.not_mem_nil, false_imp_iff, implies_true, and_true]
    exact ⟨fun s => inTime_still (fun _ => rfl) (fun _ => rfl) (fun _ => rfl) (by decide) (by decide),
      fun s => inTime_still (fun _ => rfl) (fun _ => rfl) (fun _ => rfl) (by decide) (by decide),
      fun s => inTime_still (fun _ => rfl) (fun _ => rfl) (fun _ => rfl) (by decide) (by decide),
      fun s => inTime_still (fun _ => rfl) (fun _ => rfl) (fun _ => rfl) (by decide) (by decide),
      fun s => inTime_still (fun _ => rfl) (fun _ => rfl) (fun _ => rfl) (by decide) (by decide)⟩
  obtain ⟨s', log, hrun⟩ := hrun hend (Machine.Along.of_forall hpass)
  exact ⟨s, s₀, began, s', log, hnew, hsetup, hrun⟩

end LatchingRelay

end Crosspoint
