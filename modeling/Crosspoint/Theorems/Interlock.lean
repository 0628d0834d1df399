import Crosspoint.Theorems.Refinement

/-! The interlock invariant: no two locked rows occupy a column, and no two rows occupy an exclusive one.
    Only a node that the rules let through becomes occupied, so every event keeps it; `lockRows` and
    `exclusiveInput` keep it when they are called on rows and columns that obey it already. -/

namespace Crosspoint
open Loops PulseTable

namespace TableXPoint
variable {a b : TableXPoint} {e : Event} {es : List Event} {op : Op} {calls : List DriverCall} {r c s : UInt8}

/-! ### The rules -/

theorem occupied_iff : a.occupied r c = true ↔ a.conn r c = true ∨ a.pulses.pending r c = true := by
  simp [occupied]

theorem interlocked_iff : a.interlocked r c = true ↔
    ∃ s, s < a.rows ∧ s ≠ r ∧ a.lock r s = true ∧ a.occupied s c = true := by
  simp [interlocked]

theorem exclusiveTaken_iff :
    a.exclusiveTaken r c = true ↔ a.excl c = true ∧ ∃ s, s < a.rows ∧ s ≠ r ∧ a.occupied s c = true := by
  simp [exclusiveTaken]

def InRange (a : TableXPoint) : Prop := ∀ r c, a.occupied r c = true → r < a.rows ∧ c < a.cols

/-- The interlock invariant. -/
structure Interlocked (a : TableXPoint) : Prop where
  symm : ∀ r s, a.lock r s = a.lock s r
  lock : ∀ r s c, r ≠ s → a.lock r s = true → ¬(a.occupied r c = true ∧ a.occupied s c = true)
  excl : ∀ r s c, r ≠ s → a.excl c = true → ¬(a.occupied r c = true ∧ a.occupied s c = true)

theorem pending_init : PulseTable.init.pending r c = false := PulseTable.idle_init.pending

theorem Blank.occupied (h : a.Blank) : a.occupied r c = false := by
  rw [TableXPoint.occupied, h.conn, h.pulses, pending_init]
  rfl

theorem Blank.inRange (h : a.Blank) : a.InRange := fun r c ho => by
  rw [h.occupied] at ho
  cases ho

theorem Blank.interlocked (h : a.Blank) : a.Interlocked where
  symm r s := by rw [h.lock, h.lock]
  lock _ _ _ _ hl := absurd ((h.lock _ _).symm.trans hl) Bool.false_ne_true
  excl _ _ _ _ hx := absurd ((h.excl _).symm.trans hx) Bool.false_ne_true

/-! ### What an event does to the occupied nodes -/

theorem Does.lock_eq (h : Does a e b) (he : ∀ rowA rowB, e ≠ .lock rowA rowB) : b.lock = a.lock := by
  cases h with
  | lock => exact absurd rfl (he _ _)
  | _ => rfl

theorem Does.excl_eq (h : Does a e b) (he : ∀ col, e ≠ .exclude col) : b.excl = a.excl := by
  cases h with
  | exclude => exact absurd rfl (he _)
  | _ => rfl

theorem conn_setConn {r₀ c₀ : UInt8} {on : Bool} (h : (a.setConn r₀ c₀ on).conn r c = true) :
    a.conn r c = true ∨ on = true ∧ r = r₀ ∧ c = c₀ := by
  simp only [setConn, setEntry] at h
  split at h
  · rename_i heq
    exact .inr ⟨h, heq⟩
  · exact .inl h

theorem occupied_setConn {r₀ c₀ : UInt8} {on : Bool} (h : (a.setConn r₀ c₀ on).occupied r c = true) :
    a.occupied r c = true ∨ on = true ∧ r = r₀ ∧ c = c₀ := by
  rw [occupied_iff] at h ⊢
  rcases h with h | h
  · exact (conn_setConn h).imp_left .inl
  · exact .inl (.inr h)

/-- Switching a node and giving it a slot occupies no other node. -/
theorem occupied_pulse {r₀ c₀ : UInt8} {on : Bool} {t : UInt32} {i : Fin MAX_PULSES}
    (hi : (a.pulses.get i).on = false ∨ (a.pulses.get i).names r₀ c₀ = true)
    (h : ((a.setConn r₀ c₀ on).setPulses (a.pulses.put i ⟨r₀, c₀, t, true⟩)).occupied r c = true) :
    a.occupied r c = true ∨ r = r₀ ∧ c = c₀ := by
  rw [occupied_iff] at h ⊢
  rcases h with h | h
  · exact (conn_setConn h).imp .inl And.right
  · rcases (pending_put hi rfl).mp h with heq | hp
    · exact .inr heq
    · exact .inl (.inr hp)

/-- An event occupies no further node, or exactly one that the rules let through. -/
theorem Does.occupied (h : Does a e b) : (∀ r c, b.occupied r c = true → a.occupied r c = true) ∨
    ∃ r₀ c₀, a.Allows r₀ c₀ true ∧ ∀ r c, b.occupied r c = true → a.occupied r c = true ∨ r = r₀ ∧ c = c₀ := by
  have hset : ∀ r₀ c₀ on, a.Allows r₀ c₀ on →
      (∀ r c, (a.setConn r₀ c₀ on).occupied r c = true → a.occupied r c = true) ∨
        ∃ r₁ c₁, a.Allows r₁ c₁ true ∧ ∀ r c, (a.setConn r₀ c₀ on).occupied r c = true →
          a.occupied r c = true ∨ r = r₁ ∧ c = c₁ := fun r₀ c₀ on hallows => by
    cases on with
    | true => exact .inr ⟨r₀, c₀, hallows, fun r c ho => (occupied_setConn ho).imp_right And.right⟩
    | false => exact .inl fun r c ho => (occupied_setConn ho).resolve_right fun h => nomatch h.1
  -- A node that was connected is occupied before and after its pulse.
  have hpulse : ∀ r₀ c₀, a.conn r₀ c₀ = true → ∀ r c, a.occupied r c = true ∨ r = r₀ ∧ c = c₀ → a.occupied r c = true := by
    rintro r₀ c₀ hc r c (ho | ⟨rfl, rfl⟩)
    · exact ho
    · exact occupied_iff.mpr (.inl hc)
  cases h with
  | switch _ hallows => exact hset _ _ _ hallows
  | level _ hallows => exact hset _ _ _ hallows
  | @pulse r₀ c₀ on i t _ hallows hoff _ hi =>
    cases on with
    | true => exact .inr ⟨r₀, c₀, hallows, fun r c => occupied_pulse (.inl hi)⟩
    | false => exact .inl fun r c ho => hpulse r₀ c₀ (hoff rfl) r c (occupied_pulse (.inl hi) ho)
  | @repulse r₀ c₀ i t _ _ hc hi => exact .inl fun r c ho => hpulse r₀ c₀ hc r c (occupied_pulse (.inr hi) ho)
  | skip _ hallows => exact hset _ _ _ hallows
  | release _ _ =>
    refine .inl fun r c ho => ?_
    rw [occupied_iff] at ho ⊢
    exact ho.imp_right pending_of_freed
  | _ => exact .inl fun r c => id

theorem Does.inRange (h : Does a e b) (ha : a.InRange) : b.InRange := by
  intro r c ho
  rw [h.rows, h.cols]
  rcases h.occupied with hsub | ⟨r₀, c₀, hallows, hsub⟩
  · exact ha r c (hsub r c ho)
  · rcases hsub r c ho with ho | ⟨rfl, rfl⟩
    · exact ha r c ho
    · exact ⟨hallows.row, hallows.col⟩

/-- A node that the rules let through shares its column with no occupied node that it is locked against, and an
    exclusive column with no occupied node at all. -/
theorem Allows.free {r₀ c₀ : UInt8} (h : a.Allows r₀ c₀ true) (ha : a.InRange) (hs : s ≠ r₀) (ho : a.occupied s c₀ = true) :
    a.lock r₀ s = false ∧ a.excl c₀ = false := by
  have hb := h.on rfl
  simp only [blocked, Bool.or_eq_false_iff] at hb
  have hrow := (ha s c₀ ho).1
  constructor
  · cases hl : a.lock r₀ s with
    | false => rfl
    | true => exact absurd (interlocked_iff.mpr ⟨s, hrow, hs, hl, ho⟩) (by simp [hb.1])
  · cases hx : a.excl c₀ with
    | false => rfl
    | true => exact absurd (exclusiveTaken_iff.mpr ⟨hx, s, hrow, hs, ho⟩) (by simp [hb.2])

/-- Rows that come to share a column by an event are not locked against each other, and the column is not
    exclusive. -/
theorem Does.shares (h : Does a e b) (hr : a.InRange) (ha : a.Interlocked) (hne : r ≠ s) (h1 : b.occupied r c = true)
    (h2 : b.occupied s c = true) :
    (a.occupied r c = true ∧ a.occupied s c = true) ∨ a.lock r s = false ∧ a.excl c = false := by
  rcases h.occupied with hsub | ⟨r₀, c₀, hallows, hsub⟩
  · exact .inl ⟨hsub r c h1, hsub s c h2⟩
  · rcases hsub r c h1 with h1 | ⟨rfl, rfl⟩
    · rcases hsub s c h2 with h2 | ⟨rfl, rfl⟩
      · exact .inl ⟨h1, h2⟩
      · rw [ha.symm]
        exact .inr (hallows.free hr hne h1)
    · rcases hsub s c h2 with h2 | ⟨rfl, -⟩
      · exact .inr (hallows.free hr (Ne.symm hne) h2)
      · exact absurd rfl hne

/-- Every event but a new lock or a new exclusive column keeps the interlock invariant. -/
theorem Does.interlocked (h : Does a e b) (hlock : ∀ rowA rowB, e ≠ .lock rowA rowB) (hexcl : ∀ col, e ≠ .exclude col)
    (hr : a.InRange) (ha : a.Interlocked) : b.Interlocked := by
  have hl := h.lock_eq hlock
  have hx := h.excl_eq hexcl
  refine ⟨fun r s => by rw [hl]; exact ha.symm r s, fun r s c hne hrs ⟨h1, h2⟩ => ?_, fun r s c hne hc ⟨h1, h2⟩ => ?_⟩
  · rcases h.shares hr ha hne h1 h2 with hboth | ⟨hfree, -⟩
    · exact ha.lock r s c hne (hl ▸ hrs) hboth
    · rw [hl, hfree] at hrs
      cases hrs
  · rcases h.shares hr ha hne h1 h2 with hboth | ⟨-, hfree⟩
    · exact ha.excl r s c hne (hx ▸ hc) hboth
    · rw [hx, hfree] at hc
      cases hc

/-! ### What an operation does -/

/-- `lockRows` and `exclusiveInput` are called on rows and columns that obey the new rule already. -/
def Obeys (a : TableXPoint) (i : Op × Clock) : Prop :=
  match i.1 with
  | .lockRows rowA rowB => rowA ≠ rowB → ∀ c, ¬(a.occupied rowA c = true ∧ a.occupied rowB c = true)
  | .exclusiveInput col => ∀ r s, r ≠ s → ¬(a.occupied r col = true ∧ a.occupied s col = true)
  | _ => True

theorem obeys_of_vacant (h : ∀ r c, a.occupied r c = false) (i : Op × Clock) : a.Obeys i := by
  obtain ⟨op, millis⟩ := i
  cases op with
  | lockRows rowA rowB => exact fun _ c ho => Bool.eq_false_iff.mp (h rowA c) ho.1
  | exclusiveInput col => exact fun r _ _ ho => Bool.eq_false_iff.mp (h r col) ho.1
  | _ => trivial

theorem setLock_iff {rowA rowB : UInt8} : ((a.setLock rowA rowB).setLock rowB rowA).lock r s = true ↔
    (r = rowA ∧ s = rowB) ∨ (r = rowB ∧ s = rowA) ∨ a.lock r s = true := by
  simp only [setLock, setEntry]
  split
  · rename_i h
    exact iff_of_true rfl (.inr (.inl h))
  · rename_i hBA
    split
    · rename_i h
      exact iff_of_true rfl (.inl h)
    · rename_i hAB
      exact ⟨fun h => .inr (.inr h), fun h => (h.resolve_left hAB).resolve_left hBA⟩

theorem Interlocked.setLock {rowA rowB : UInt8} (ha : a.Interlocked)
    (h : rowA ≠ rowB → ∀ c, ¬(a.occupied rowA c = true ∧ a.occupied rowB c = true)) :
    ((a.setLock rowA rowB).setLock rowB rowA).Interlocked where
  symm r s := by
    rw [Bool.eq_iff_iff, setLock_iff, setLock_iff, ha.symm r s]
    tauto
  lock r s c hne hrs := by
    rcases setLock_iff.mp hrs with ⟨rfl, rfl⟩ | ⟨rfl, rfl⟩ | hrs
    · exact h hne c
    · exact fun ⟨h1, h2⟩ => h (Ne.symm hne) c ⟨h2, h1⟩
    · exact ha.lock r s c hne hrs
  excl := ha.excl

theorem Interlocked.setExcl {col : UInt8} (ha : a.Interlocked)
    (h : ∀ r s, r ≠ s → ¬(a.occupied r col = true ∧ a.occupied s col = true)) : (a.setExcl col).Interlocked where
  symm := ha.symm
  lock := ha.lock
  excl r s c hne hc := by
    simp only [TableXPoint.setExcl] at hc
    split at hc
    · rename_i heq
      exact heq ▸ h r s hne
    · exact ha.excl r s c hne hc

theorem step_inRange (hd : a.pulses.Distinct) (hr : a.InRange) (i : Op × Clock) : (a.step i).1.InRange :=
  let ⟨_, h⟩ := step_events hd i
  h.steps.inv (fun _ _ _ hs _ hdo => hdo.inRange hs) hr

theorem step_interlocked (hd : a.pulses.Distinct) (hr : a.InRange) (ha : a.Interlocked) {i : Op × Clock}
    (hi : a.Obeys i) : (a.step i).1.Interlocked := by
  have hevents (hl : ∀ rowA rowB, i.1 ≠ .lockRows rowA rowB) (hx : ∀ col, i.1 ≠ .exclusiveInput col) :
      (a.step i).1.Interlocked := by
    obtain ⟨es, h⟩ := step_events hd i
    exact (h.steps.inv (I := fun s => s.InRange ∧ s.Interlocked) (fun s e t hs he hdo =>
      ⟨hdo.inRange hs.1, hdo.interlocked (fun A B heq => hl A B (emits_lock (heq ▸ h.emits e he)))
        (fun c heq => hx c (emits_exclude (heq ▸ h.emits e he))) hs.1 hs.2⟩) ⟨hr, ha⟩).2
  obtain ⟨op, millis⟩ := i
  cases op with
  | lockRows rowA rowB =>
    change (a.lockRows rowA rowB).1.Interlocked
    unfold lockRows
    split
    · exact ha
    · exact ha.setLock hi
  | exclusiveInput col =>
    change (a.exclusiveInput col).1.Interlocked
    unfold exclusiveInput
    split
    · exact ha
    · exact ha.setExcl hi
  | _ => exact hevents (fun _ _ h => nomatch h) (fun _ h => nomatch h)

end TableXPoint

namespace XPoint
variable {x : XPoint} {rows cols : UInt8} {type : RelayType} {pdur : UInt16} {ops : List (Op × Clock)}

/-- On a matrix that has not run yet every rule can be set. -/
theorem Attached.obeys {d : DriverRef} (h : Attached rows cols type pdur d x) (i : Op × Clock) : x.tables.Obeys i := by
  obtain ⟨-, -, valid, ht⟩ := h.spec
  exact ht ▸ TableXPoint.obeys_of_vacant (fun _ _ => (TableXPoint.blank_init.setDriver (some d)).occupied) i

/-- After every run whose `lockRows` and `exclusiveInput` calls come when their rows and columns obey them,
    the lock relation is symmetric and no column breaks its rules. -/
theorem run_interlocked (h : Built rows cols type pdur x)
    (hops : Machine.Along step (fun x i => x.tables.Obeys i) x ops) :
    ∃ x' log, x.run ops = some (x', log) ∧ x'.tables.Interlocked := by
  obtain ⟨hwf, ht⟩ := h.spec
  have hb : x.tables.Blank := ht ▸ TableXPoint.blank_init
  obtain ⟨x', log, hrun, -, -, hI⟩ := run_keeps (J := fun _ a => a.InRange ∧ a.Interlocked)
    (fun _ a i hI hd hi => ⟨TableXPoint.step_inRange hd hI.1 i, TableXPoint.step_interlocked hd hI.1 hI.2 hi⟩)
    hwf h.distinct ⟨hb.inRange, hb.interlocked⟩ hops
  exact ⟨x', log, hrun, hI.2⟩

theorem run_interlocked_two_by_two : ∃ x, heap 2 2 .nonLatching 0 = some x ∧
    ∃ x' log, x.run [(.lockRows 0 1, fun _ => 0), (.connect 0 0, fun _ => 0), (.connect 1 0, fun _ => 1)] =
      some (x', log) ∧ x'.tables.Interlocked := by
  obtain ⟨x, hx⟩ := (exists_built 2 2 .nonLatching 0).1
  refine ⟨x, hx, run_interlocked (.heap hx) ⟨fun _ c hc => ?_,
    fun _ _ => ⟨trivial, fun _ _ => ⟨trivial, fun _ _ => trivial⟩⟩⟩⟩
  rw [(Built.heap hx).spec.2, TableXPoint.blank_init.occupied] at hc
  cases hc.1

end XPoint

end Crosspoint
