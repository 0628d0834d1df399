import Crosspoint.Hardware
import Crosspoint.Theorems.Room

/-! The contacts of a latching matrix. As long as `clearAll` has a slot for every node it resets, a contact is
    closed when its node is connected, opening when only its pulse is in flight, and open otherwise; the
    interlock rules, which look at bits and slots, then hold of the contacts. Where `clearAll` passes a node
    over, its contact stays closed although the node is neither connected nor pending, and a locked row may
    close on the same column. -/

namespace Crosspoint
open PulseTable

namespace TableXPoint
variable {a b : TableXPoint} {e : Event} {es : List Event} {cs : List DriverCall} {r c : UInt8}

/-- Where the contact of a node stands that is connected or not, and pending or not. -/
def standing (conn pending : Bool) : Contact :=
  match conn, pending with
  | true, _ => .closed
  | false, true => .opening
  | false, false => .opened

theorem standing_eq_opened : standing (a.conn r c) (a.pulses.pending r c) = .opened ↔ a.occupied r c = false := by
  rw [occupied]
  cases a.conn r c <;> cases a.pulses.pending r c <;> simp [standing]

/-- The contacts stand as the bits and slots say. -/
structure Follows (cs : List DriverCall) (a : TableXPoint) : Prop where
  type : a.type = .latchingDualCoil
  contacts : ∀ r c, contact cs r c = standing (a.conn r c) (a.pulses.pending r c)

theorem contact_concat {call : DriverCall} : contact (cs ++ [call]) r c = Contact.move r c (contact cs r c) call := by
  rw [contact, List.foldl_append]
  rfl

theorem Follows.other (ha : Follows cs a) {call : DriverCall} (hn : ∀ r c, call.names r c = false) :
    Follows (cs ++ [call]) a where
  type := ha.type
  contacts r c := by
    rw [contact_concat, Contact.move_other (hn r c)]
    exact ha.contacts r c

theorem Follows.congr (ha : Follows cs a) (ht : b.type = a.type) (hc : b.conn = a.conn) (hp : b.pulses = a.pulses) :
    Follows (cs ++ []) b where
  type := ht.trans ha.type
  contacts r c := by
    rw [List.append_nil, hc, hp]
    exact ha.contacts r c

theorem Follows.set (ha : Follows cs a) {i : Fin MAX_PULSES} {r₀ c₀ : UInt8} {on : Bool} {t : UInt32}
    (hi : (a.pulses.get i).on = false ∨ (a.pulses.get i).names r₀ c₀ = true) :
    Follows (cs ++ [.setNodeHardware r₀ c₀ on]) ((a.setConn r₀ c₀ on).setPulses (a.pulses.put i ⟨r₀, c₀, t, true⟩)) where
  type := ha.type
  contacts r c := by
    have hp := pending_put (r := r) (c := c) (e := ⟨r₀, c₀, t, true⟩) hi rfl
    rw [contact_concat]
    simp only [setPulses, setConn]
    by_cases heq : r = r₀ ∧ c = c₀
    · obtain ⟨rfl, rfl⟩ := heq
      rw [Contact.move_set, setEntry_self, hp.mpr (.inl ⟨rfl, rfl⟩)]
      cases on <;> rfl
    · have hpend : pending (a.pulses.put i ⟨r₀, c₀, t, true⟩) r c = a.pulses.pending r c :=
        Bool.eq_iff_iff.mpr (hp.trans (or_iff_right heq))
      rw [Contact.move_other (DriverCall.names_set heq), setEntry_ne heq, hpend]
      exact ha.contacts r c

/-- Every event but a passed-over node moves the contacts as it moves bits and slots. -/
theorem Does.follows (h : Does a e b) (hd : a.pulses.Distinct) (he : ∀ r c, e ≠ .skip r c) (ha : Follows cs a) :
    Follows (cs ++ e.calls) b := by
  cases h with
  | switch ht _ => cases ha.type.symm.trans ht
  | level ht _ => cases ha.type.symm.trans ht
  | pulse _ _ _ _ hi => exact ha.set (.inl hi)
  | repulse _ _ _ hi => exact ha.set (.inr hi)
  | skip => exact absurd rfl (he _ _)
  | @release i _ hi =>
    refine ⟨ha.type, fun r c => ?_⟩
    have hp := hd.pending_freed (r := r) (c := c) hi
    rw [Event.calls, contact_concat, ha.contacts r c]
    simp only [setPulses]
    by_cases heq : r = (a.pulses.get i).r ∧ c = (a.pulses.get i).c
    · obtain ⟨rfl, rfl⟩ := heq
      have hnot : (a.pulses.freed i).pending (a.pulses.get i).r (a.pulses.get i).c = false :=
        Bool.eq_false_iff.mpr fun hpend => (hp.mp hpend).1 ⟨rfl, rfl⟩
      rw [Contact.move_release, hnot, pending_iff.mpr ⟨i, names_self hi⟩]
      cases a.conn (a.pulses.get i).r (a.pulses.get i).c <;> rfl
    · have hpend : (a.pulses.freed i).pending r c = a.pulses.pending r c :=
        Bool.eq_iff_iff.mpr (hp.trans (and_iff_right heq))
      rw [Contact.move_other (DriverCall.names_release heq), hpend]
  | commit => exact ha.other fun _ _ => rfl
  | begin => exact ha.other fun _ _ => rfl
  | lock => exact ha.congr rfl rfl rfl
  | exclude => exact ha.congr rfl rfl rfl
  | attach => exact ha.congr rfl rfl rfl

theorem step_follows (hd : a.pulses.Distinct) (hdrv : a.drv.isSome = true) (ha : Follows cs a) {i : Op × Clock}
    (hi : a.Roomy i) : Follows (cs ++ (a.step i).2.calls) (a.step i).1 := by
  obtain ⟨es, h⟩ := step_events hd i
  exact h.keeps hdrv hd ha fun cs s e t hs hds he hdo =>
    hdo.follows hds (fun r c hskip => h.no_skip hi r c (hskip ▸ he)) hs

/-- The rules hold of the contacts: no column has two locked rows, and no exclusive column two rows, whose
    contacts are not open. -/
structure ContactsApart (a : TableXPoint) (cs : List DriverCall) : Prop where
  lock : ∀ r s c, r ≠ s → a.lock r s = true → contact cs r c = .opened ∨ contact cs s c = .opened
  excl : ∀ r s c, r ≠ s → a.excl c = true → contact cs r c = .opened ∨ contact cs s c = .opened

theorem Follows.apart (ha : Follows cs a) (hI : a.Interlocked) : a.ContactsApart cs := by
  have hopen : ∀ r s c, ¬(a.occupied r c = true ∧ a.occupied s c = true) →
      contact cs r c = .opened ∨ contact cs s c = .opened := fun r s c h => by
    rw [ha.contacts, ha.contacts, standing_eq_opened, standing_eq_opened]
    cases hr : a.occupied r c with
    | false => exact .inl rfl
    | true => exact .inr (Bool.eq_false_iff.mpr fun hs => h ⟨hr, hs⟩)
  exact ⟨fun r s c hne hl => hopen r s c (hI.lock r s c hne hl), fun r s c hne hx => hopen r s c (hI.excl r s c hne hx)⟩

/-- What carries the rules over to the contacts. -/
structure Guarded (d : DriverRef) (cs : List DriverCall) (a : TableXPoint) : Prop where
  drv : a.drv = some d
  inRange : a.InRange
  interlocked : a.Interlocked
  follows : Follows cs a

variable {d : DriverRef} {i : Op × Clock}

theorem Blank.guarded (h : a.Blank) (hdrv : a.drv = some d) (ht : a.type = .latchingDualCoil) : Guarded d [] a where
  drv := hdrv
  inRange := h.inRange
  interlocked := h.interlocked
  follows := ⟨ht, fun r c => by
    rw [h.conn, h.pulses, pending_init]
    rfl⟩

theorem step_guarded (hd : a.pulses.Distinct) (ha : Guarded d cs a) (hdrv : i.1.KeepsDriver d) (hobeys : a.Obeys i)
    (hroom : a.Roomy i) : Guarded d (cs ++ (a.step i).2.calls) (a.step i).1 where
  drv := step_drv hd ha.drv hdrv
  inRange := step_inRange hd ha.inRange i
  interlocked := step_interlocked hd ha.inRange ha.interlocked hobeys
  follows := step_follows hd (by rw [ha.drv]; rfl) ha.follows hroom

theorem step_configures (hi : i.1.Configures) : (a.step i).1.conn = a.conn ∧ (a.step i).1.pulses = a.pulses := by
  obtain ⟨op, millis⟩ := i
  cases op with
  | lockRows rowA rowB =>
    change (a.lockRows rowA rowB).1.conn = a.conn ∧ (a.lockRows rowA rowB).1.pulses = a.pulses
    unfold lockRows
    split <;> exact ⟨rfl, rfl⟩
  | exclusiveInput col =>
    change (a.exclusiveInput col).1.conn = a.conn ∧ (a.exclusiveInput col).1.pulses = a.pulses
    unfold exclusiveInput
    split <;> exact ⟨rfl, rfl⟩
  | _ => exact absurd hi id

theorem obeys_of_operates (h : i.1.Operates) : a.Obeys i := by
  obtain ⟨op, millis⟩ := i
  cases op with
  | lockRows => exact absurd h id
  | exclusiveInput => exact absurd h id
  | _ => trivial

theorem keepsDriver_of_operates (h : i.1.Operates) : i.1.KeepsDriver d := by
  obtain ⟨op, millis⟩ := i
  cases op with
  | setDriver => exact absurd h id
  | _ => trivial

theorem configures_spec (h : i.1.Configures) : i.1.KeepsDriver d ∧ a.Roomy i := by
  obtain ⟨op, millis⟩ := i
  cases op with
  | lockRows => exact ⟨trivial, fun hop => nomatch hop⟩
  | exclusiveInput => exact ⟨trivial, fun hop => nomatch hop⟩
  | _ => exact absurd h id

end TableXPoint

namespace XPoint
variable {x : XPoint} {rows cols : UInt8} {pdur : UInt16} {d : DriverRef} {setup ops : List (Op × Clock)}

/-- In every run where `clearAll` is only called with a free slot for each connected node that has none, the
    rules hold of the contacts after every operation. -/
theorem run_contacts_apart (h : Attached rows cols .latchingDualCoil pdur d x)
    (hsetup : ∀ i ∈ setup, i.1.Configures) (hops : ∀ i ∈ ops, i.1.Operates)
    (hroom : Machine.Along step (fun x i => x.tables.Roomy i) x (setup ++ ops)) :
    ∃ x' log, x.run (setup ++ ops) = some (x', log) ∧ x'.tables.ContactsApart (driverCalls log) := by
  obtain ⟨hwf, hd, valid, ht⟩ := h.spec
  have hb : x.tables.Blank := ht ▸ TableXPoint.blank_init.setDriver (some d)
  -- First the rules are set up on open contacts; from there the matrix works under them.
  obtain ⟨x₁, log₁, hrun₁, hwf₁, hd₁, hg₁, -⟩ := run_keeps
    (J := fun cs a => TableXPoint.Guarded d cs a ∧ ∀ r c, a.occupied r c = false) (P := fun _ i => i.1.Configures)
    (fun cs a i hJ hd hi => by
      obtain ⟨hdrv, hroom⟩ := TableXPoint.configures_spec (d := d) (a := a) hi
      refine ⟨TableXPoint.step_guarded hd hJ.1 hdrv (TableXPoint.obeys_of_vacant hJ.2 i) hroom, fun r c => ?_⟩
      rw [TableXPoint.occupied, (TableXPoint.step_configures hi).1, (TableXPoint.step_configures hi).2]
      exact hJ.2 r c)
    hwf hd ⟨hb.guarded (by rw [ht]; rfl) (by rw [ht]; rfl), fun _ _ => hb.occupied⟩
    (Machine.Along.of_forall fun i hi _ => hsetup i hi)
  obtain ⟨x₂, log₂, hrun₂, -, -, hg₂⟩ := run_keeps
    (J := fun cs a => TableXPoint.Guarded d (driverCalls log₁ ++ cs) a)
    (P := fun a i => a.Roomy i ∧ i.1.Operates)
    (fun cs a i hJ hd hi => by
      rw [← List.append_assoc]
      exact TableXPoint.step_guarded hd hJ (TableXPoint.keepsDriver_of_operates hi.2)
        (TableXPoint.obeys_of_operates hi.2) hi.1)
    hwf₁ hd₁ (by rw [List.append_nil]; exact hg₁)
    ((hroom.append hrun₁).and (Machine.Along.of_forall fun i hi _ => hops i hi))
  refine ⟨x₂, log₁ ++ log₂, Machine.run_append hrun₁ hrun₂, ?_⟩
  rw [driverCalls, List.flatMap_append]
  exact hg₂.follows.apart hg₂.interlocked

theorem run_contacts_apart_two_by_two : ∃ x, Attached 2 2 .latchingDualCoil 5 0 x ∧ ∃ x' log,
    x.run ([(.lockRows 0 1, fun _ => 0)] ++ [(.connect 0 0, fun _ => 1), (.clearAll, fun _ => 2), (.update, fun _ => 7),
      (.connect 1 0, fun _ => 7)]) = some (x', log) ∧ x'.tables.ContactsApart (driverCalls log) := by
  obtain ⟨x, hx⟩ := exists_attached 2 2 .latchingDualCoil 5 0
  refine ⟨x, hx, run_contacts_apart hx ?_ ?_ ?_⟩
  · exact List.forall_mem_singleton.mpr trivial
  · simp only [List.forall_mem_cons, List.not_mem_nil, false_imp_iff, implies_true, and_true]
    exact ⟨trivial, trivial, trivial, trivial⟩
  obtain ⟨hwf, -, valid, ht⟩ := hx.spec
  refine along_tables hwf ?_
  rw [ht]
  simp only [List.cons_append, List.nil_append, Machine.along_pure]
  cases valid <;> exact ⟨by decide, by decide, by decide, by decide, by decide, trivial⟩

/-- Nine nodes of row 0 are connected and their pulses have run out when `clearAll` is called: the ninth gets no
    slot, its contact stays closed, and row 1, locked against row 0, closes on its column. -/
theorem clearAll_leaves_contact_closed : ∃ x x' log, Attached 2 9 .latchingDualCoil 0 0 x ∧
    x.run ([(.lockRows 0 1, fun _ => 0)] ++
      [(.connect 0 0, fun _ => 0), (.connect 0 1, fun _ => 0), (.connect 0 2, fun _ => 0), (.connect 0 3, fun _ => 0),
        (.connect 0 4, fun _ => 0), (.connect 0 5, fun _ => 0), (.connect 0 6, fun _ => 0), (.connect 0 7, fun _ => 0),
        (.update, fun _ => 0), (.connect 0 8, fun _ => 0), (.update, fun _ => 0), (.clearAll, fun _ => 0),
        (.update, fun _ => 0), (.connect 1 8, fun _ => 0)]) = some (x', log) ∧
      ¬x'.tables.ContactsApart (driverCalls log) := by
  let ops : List (Op × Clock) := [(.lockRows 0 1, fun _ => 0)] ++
    [(.connect 0 0, fun _ => 0), (.connect 0 1, fun _ => 0), (.connect 0 2, fun _ => 0), (.connect 0 3, fun _ => 0),
      (.connect 0 4, fun _ => 0), (.connect 0 5, fun _ => 0), (.connect 0 6, fun _ => 0), (.connect 0 7, fun _ => 0),
      (.update, fun _ => 0), (.connect 0 8, fun _ => 0), (.update, fun _ => 0), (.clearAll, fun _ => 0),
      (.update, fun _ => 0), (.connect 1 8, fun _ => 0)]
  have hrun : ((heap 2 9 .latchingDualCoil 0).bind fun y => ((y.setDriver (some 0)).1.run ops).map fun t =>
      (t.1.tables.lock 0 1, contact (driverCalls t.2) 0 8, contact (driverCalls t.2) 1 8)) =
        some (true, .closed, .closed) := by decide +kernel
  obtain ⟨y, x', log, hy, hrun, hend⟩ := Machine.run_of_bind hrun
  obtain ⟨hlock, h0, h1⟩ : x'.tables.lock 0 1 = true ∧ contact (driverCalls log) 0 8 = .closed ∧
      contact (driverCalls log) 1 8 = .closed := by simpa using hend
  refine ⟨_, x', log, ⟨y, .heap hy, rfl⟩, hrun, fun hapart => ?_⟩
  rcases hapart.lock 0 1 8 (by decide) hlock with ho | ho
  · cases h0.symm.trans ho
  · cases h1.symm.trans ho

end XPoint

end Crosspoint
