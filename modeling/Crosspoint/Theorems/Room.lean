import Crosspoint.Theorems.Interlock
import Mathlib.Data.Finset.Card
import Mathlib.Data.Finset.Prod
import Mathlib.Data.Fintype.Basic

/-! The room of `clearAll`: it drives every connected node that has a slot, and of the others as many as there
    are free slots. When no more nodes than that want a slot, no node is passed over. -/

namespace Crosspoint
open Loops PulseTable

namespace TableXPoint
variable {a b : TableXPoint} {e : Event} {es : List Event} {calls : List DriverCall} {r c : UInt8}

def unserved (a : TableXPoint) : Finset (UInt8 × UInt8) :=
  ((below a.rows).toFinset ×ˢ (below a.cols).toFinset).filter fun n =>
    a.conn n.1 n.2 = true ∧ a.pulses.pending n.1 n.2 = false

def freeSlots (a : TableXPoint) : Finset (Fin MAX_PULSES) := Finset.univ.filter fun i => (a.pulses.get i).on = false

/-- A free slot for every connected node that has none. -/
def HasRoom (a : TableXPoint) : Prop := a.unserved.card ≤ a.freeSlots.card

instance (a : TableXPoint) : Decidable a.HasRoom := inferInstanceAs (Decidable (_ ≤ _))

theorem mem_unserved : (r, c) ∈ a.unserved ↔
    (r < a.rows ∧ c < a.cols) ∧ a.conn r c = true ∧ a.pulses.pending r c = false := by
  simp [unserved]

theorem mem_freeSlots {i : Fin MAX_PULSES} : i ∈ a.freeSlots ↔ (a.pulses.get i).on = false := by
  simp [freeSlots]

theorem HasRoom.mono (ha : a.HasRoom) (hu : b.unserved ⊆ a.unserved) (hf : a.freeSlots ⊆ b.freeSlots) : b.HasRoom :=
  (Finset.card_le_card hu).trans (le_trans ha (Finset.card_le_card hf))

/-- One node is served by one slot. -/
theorem HasRoom.serve (ha : a.HasRoom) {n : UInt8 × UInt8} {i : Fin MAX_PULSES} (hn : n ∈ a.unserved) (hi : i ∈ a.freeSlots)
    (hu : b.unserved ⊆ a.unserved.erase n) (hf : a.freeSlots.erase i ⊆ b.freeSlots) : b.HasRoom :=
  calc b.unserved.card ≤ (a.unserved.erase n).card := Finset.card_le_card hu
    _ = a.unserved.card - 1 := Finset.card_erase_of_mem hn
    _ ≤ a.freeSlots.card - 1 := Nat.sub_le_sub_right ha 1
    _ = (a.freeSlots.erase i).card := (Finset.card_erase_of_mem hi).symm
    _ ≤ b.freeSlots.card := Finset.card_le_card hf

theorem conn_setConn_false {r₀ c₀ : UInt8} :
    (a.setConn r₀ c₀ false).conn r c = true ↔ ¬(r = r₀ ∧ c = c₀) ∧ a.conn r c = true := by
  simp only [setConn, setEntry]
  split
  · rename_i h
    exact iff_of_false Bool.false_ne_true fun hn => hn.1 h
  · rename_i h
    exact ⟨fun hc => ⟨h, hc⟩, And.right⟩

section Pulse
variable {r₀ c₀ : UInt8} {t : UInt32} {i j : Fin MAX_PULSES}

theorem mem_unserved_pulse (hi : (a.pulses.get i).on = false ∨ (a.pulses.get i).names r₀ c₀ = true)
    (h : (r, c) ∈ unserved ((a.setConn r₀ c₀ false).setPulses (a.pulses.put i ⟨r₀, c₀, t, true⟩))) :
    (r, c) ≠ (r₀, c₀) ∧ (r, c) ∈ a.unserved := by
  obtain ⟨hin, hc, hp⟩ := mem_unserved.mp h
  obtain ⟨hne, hc⟩ := conn_setConn_false.mp hc
  have hp : a.pulses.pending r c = false := Bool.eq_false_iff.mpr fun hpa =>
    Bool.eq_false_iff.mp hp ((pending_put hi rfl).mpr (.inr hpa))
  exact ⟨fun heq => hne (Prod.mk.inj heq), mem_unserved.mpr ⟨hin, hc, hp⟩⟩

theorem mem_freeSlots_pulse (hij : i ≠ j) (hj : j ∈ a.freeSlots) :
    j ∈ freeSlots ((a.setConn r₀ c₀ false).setPulses (a.pulses.put i ⟨r₀, c₀, t, true⟩)) := by
  rw [mem_freeSlots] at hj ⊢
  change ((Vector.put a.pulses i _).get j).on = false
  rw [Vector.get_put, if_neg hij]
  exact hj

end Pulse

/-- An event of `clearAll` keeps the room, and where there is room it passes no node over. -/
theorem Does.hasRoom (h : Does a e b) (he : Op.clearAll.Emits e) (ha : a.HasRoom) :
    b.HasRoom ∧ ∀ r c, e ≠ .skip r c := by
  have hclear : ∀ r₀ c₀, (a.setConn r₀ c₀ false).HasRoom := fun r₀ c₀ =>
    ha.mono (by
      rintro ⟨r, c⟩ hn
      obtain ⟨hin, hc, hp⟩ := mem_unserved.mp hn
      exact mem_unserved.mpr ⟨hin, (conn_setConn_false.mp hc).2, hp⟩) fun i hi => hi
  cases h with
  | @switch r₀ c₀ on =>
    obtain rfl : on = false := by simpa [Op.Emits] using he
    exact ⟨hclear r₀ c₀, by simp⟩
  | level => simp [Op.Emits] at he
  | @pulse r₀ c₀ on i t _ hallows hoff hp hi =>
    obtain rfl : on = false := by simpa [Op.Emits] using he
    have hn : (r₀, c₀) ∈ a.unserved := mem_unserved.mpr ⟨⟨hallows.row, hallows.col⟩, hoff rfl, hp⟩
    refine ⟨ha.serve hn (mem_freeSlots.mpr hi) (fun n hm => ?_) (fun j hj => ?_), by simp⟩
    · exact Finset.mem_erase.mpr (mem_unserved_pulse (.inl hi) hm)
    · obtain ⟨hne, hj⟩ := Finset.mem_erase.mp hj
      exact mem_freeSlots_pulse (Ne.symm hne) hj
  | @repulse r₀ c₀ i t _ _ hc hi =>
    refine ⟨ha.mono (fun n hm => (mem_unserved_pulse (.inr hi) hm).2) (fun j hj => ?_), by simp⟩
    refine mem_freeSlots_pulse ?_ hj
    rintro rfl
    rw [mem_freeSlots, (names_iff.mp hi).1] at hj
    cases hj
  | @skip r₀ c₀ _ hallows hc hp hfull =>
    have hn : (r₀, c₀) ∈ a.unserved := mem_unserved.mpr ⟨⟨hallows.row, hallows.col⟩, hc, hp⟩
    have hnone : a.freeSlots = ∅ := Finset.eq_empty_of_forall_notMem fun i hi => by
      rw [mem_freeSlots, hfull i] at hi
      cases hi
    have hpos := Finset.card_pos.mpr ⟨_, hn⟩
    rw [HasRoom, hnone, Finset.card_empty] at ha
    omega
  | commit => exact ⟨ha, by simp⟩
  | _ => simp [Op.Emits] at he

/-- At a call of `clearAll` there is a free slot for every connected node that has none. -/
def Roomy (a : TableXPoint) (i : Op × Clock) : Prop := i.1 = .clearAll → a.HasRoom

instance (a : TableXPoint) (i : Op × Clock) : Decidable (a.Roomy i) := inferInstanceAs (Decidable (_ → _))

/-- An operation whose events keep `I`, and under `I` pass no node over, passes no node over. -/
theorem Decomposes.no_skip_of {I : TableXPoint → Prop} {op : Op} (h : Decomposes a op b calls es) (ha : I a)
    (hstep : ∀ s e t, I s → e ∈ es → Does s e t → I t ∧ ∀ r c, e ≠ .skip r c) : ∀ r c, .skip r c ∉ es := by
  have hI := h.steps.rule (I := fun es s => I s ∧ ∀ r c, .skip r c ∉ es)
    (fun es s e t hs he hdo => by
      obtain ⟨ht, hskip⟩ := hstep s e t hs.1 he hdo
      refine ⟨ht, fun r c hmem => ?_⟩
      rcases List.mem_append.mp hmem with hmem | hmem
      · exact hs.2 r c hmem
      · exact hskip r c (List.mem_singleton.mp hmem).symm)
    ⟨ha, fun _ _ => List.not_mem_nil⟩
  exact hI.2

/-- With room for every node, no node is passed over. -/
theorem Decomposes.no_skip {i : Op × Clock} (h : Decomposes a i.1 b calls es) (ha : a.Roomy i) : ∀ r c, .skip r c ∉ es := by
  by_cases hop : i.1 = .clearAll
  · rw [hop] at h
    exact h.no_skip_of (ha hop) fun _ e _ hs he hdo => hdo.hasRoom (h.emits e he) hs
  · exact fun r c hmem => hop (emits_skip (h.emits _ hmem))

theorem Decomposes.no_skip_nonLatching {op : Op} (h : Decomposes a op b calls es) (ha : a.type = .nonLatching) :
    ∀ r c, .skip r c ∉ es := by
  refine h.no_skip_of ha fun s e t hs _ hdo => ⟨hdo.type.trans hs, ?_⟩
  rintro r c rfl
  cases hdo with
  | skip ht => cases ht.symm.trans hs

end TableXPoint

end Crosspoint
