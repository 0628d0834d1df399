import Crosspoint.Lib.Loops
import Crosspoint.Pulses

/-! The slots of the pulse table. A table whose occupied slots name distinct nodes is searched exactly:
    `alloc` gives the first free slot unless the node has one already, and `reclaim` gives the node's own
    slot if it has one, else the first free slot. -/

namespace Crosspoint.PulseTable
open Loops

variable {p q : PulseTable} {i j : Fin MAX_PULSES} {e : PulseEvent} {r c : UInt8}

/-- No two occupied slots name the same node. -/
def Distinct (p : PulseTable) : Prop :=
  ∀ (i j : Fin MAX_PULSES) (r c : UInt8), (p.get i).names r c → (p.get j).names r c → i = j

def freed (p : PulseTable) (i : Fin MAX_PULSES) : PulseTable := p.put i { p.get i with on := false }

def firstFree (p : PulseTable) : Option (Fin MAX_PULSES) := (List.finRange MAX_PULSES).find? fun i => !(p.get i).on

theorem names_iff : e.names r c = true ↔ e.on = true ∧ e.r = r ∧ e.c = c := by
  simp [PulseEvent.names, and_assoc]

theorem names_self (h : e.on = true) : e.names e.r e.c = true := names_iff.mpr ⟨h, rfl, rfl⟩

theorem pending_iff : p.pending r c = true ↔ ∃ i : Fin MAX_PULSES, (p.get i).names r c = true := by
  simp [pending]

theorem pending_eq_false : p.pending r c = false ↔ ∀ i : Fin MAX_PULSES, (p.get i).names r c = false := by
  simp [pending]

theorem get_freed : (p.freed i).get j = if i = j then { p.get i with on := false } else p.get j := Vector.get_put

theorem names_freed : ((p.freed i).get j).names r c = (decide (i ≠ j) && (p.get j).names r c) := by
  rw [get_freed]
  split
  · rename_i h
    simp [PulseEvent.names, h]
  · rename_i h
    simp [h]

/-! ### Distinct tables -/

theorem Distinct.other (h : p.Distinct) (hi : (p.get i).names r c = true) (hij : i ≠ j) : (p.get j).names r c = false :=
  Bool.eq_false_iff.mpr fun hj => hij (h i j r c hi hj)

theorem Distinct.freed (h : p.Distinct) (i : Fin MAX_PULSES) : (p.freed i).Distinct := fun j k r c hj hk => by
  rw [names_freed, Bool.and_eq_true] at hj hk
  exact h j k r c hj.2 hk.2

/-- A slot may be given to a node that no other slot names. -/
theorem Distinct.put (h : p.Distinct) (he : ∀ j, j ≠ i → (p.get j).names e.r e.c = false) : Distinct (p.put i e) := by
  intro j k r c hj hk
  rw [Vector.get_put] at hj hk
  split at hj
  · rename_i hij
    split at hk
    · rename_i hik
      exact hij.symm.trans hik
    · rename_i hik
      obtain ⟨-, rfl, rfl⟩ := names_iff.mp hj
      rw [he k (Ne.symm hik)] at hk
      cases hk
  · rename_i hij
    split at hk
    · obtain ⟨-, rfl, rfl⟩ := names_iff.mp hk
      rw [he j (Ne.symm hij)] at hj
      cases hj
    · exact h j k r c hj hk

theorem Distinct.put_own (h : p.Distinct) (hi : (p.get i).names e.r e.c = true) : Distinct (p.put i e) :=
  h.put fun _ hj => h.other hi hj.symm

theorem Distinct.put_fresh (h : p.Distinct) (hp : p.pending e.r e.c = false) : Distinct (p.put i e) :=
  h.put fun j _ => pending_eq_false.mp hp j

/-! ### Pending nodes after an update of one slot -/

/-- A free slot, or the node's own, that is given to node `(e.r, e.c)` makes that node pending and no other. -/
theorem pending_put (hi : (p.get i).on = false ∨ (p.get i).names e.r e.c = true) (he : e.on = true) :
    pending (p.put i e) r c = true ↔ (r = e.r ∧ c = e.c) ∨ p.pending r c = true := by
  simp only [pending_iff]
  constructor
  · rintro ⟨j, hj⟩
    rw [Vector.get_put] at hj
    split at hj
    · obtain ⟨-, hr, hc⟩ := names_iff.mp hj
      exact .inl ⟨hr.symm, hc.symm⟩
    · exact .inr ⟨j, hj⟩
  · rintro (⟨rfl, rfl⟩ | ⟨j, hj⟩)
    · exact ⟨i, by rw [Vector.get_put, if_pos rfl]; exact names_self he⟩
    · refine ⟨j, ?_⟩
      rw [Vector.get_put]
      split
      · rename_i hij
        subst hij
        obtain ⟨hon, hr, hc⟩ := names_iff.mp hj
        rcases hi with hi | hi
        · rw [hon] at hi
          cases hi
        · obtain ⟨-, hr', hc'⟩ := names_iff.mp hi
          exact names_iff.mpr ⟨he, hr'.symm.trans hr, hc'.symm.trans hc⟩
      · exact hj

/-- Freeing a slot of a distinct table makes its node not pending, and no other. -/
theorem Distinct.pending_freed (h : p.Distinct) (hi : (p.get i).on = true) :
    (p.freed i).pending r c = true ↔ ¬(r = (p.get i).r ∧ c = (p.get i).c) ∧ p.pending r c = true := by
  simp only [pending_iff, names_freed, Bool.and_eq_true, decide_eq_true_eq]
  constructor
  · rintro ⟨j, hij, hj⟩
    refine ⟨?_, j, hj⟩
    rintro ⟨rfl, rfl⟩
    exact hij (h i j _ _ (names_self hi) hj)
  · rintro ⟨hne, j, hj⟩
    refine ⟨j, ?_, hj⟩
    rintro rfl
    obtain ⟨-, hr, hc⟩ := names_iff.mp hj
    exact hne ⟨hr.symm, hc.symm⟩

theorem pending_of_freed (h : (p.freed i).pending r c = true) : p.pending r c = true := by
  obtain ⟨j, hj⟩ := pending_iff.mp h
  rw [names_freed, Bool.and_eq_true] at hj
  exact pending_iff.mpr ⟨j, hj.2⟩

/-! ### The slot searches -/

theorem firstFree_eq_some (h : p.firstFree = some i) : (p.get i).on = false := by
  simpa using List.find?_some h

theorem firstFree_first (h : p.firstFree = some i) : ∀ j < i, (p.get j).on = true := by
  obtain ⟨-, k, hk, rfl, hbefore⟩ := List.find?_eq_some_iff_getElem.mp h
  intro j hj
  have hjk : j.val < k := by simpa using Fin.lt_def.mp hj
  simpa using hbefore j.val hjk

theorem firstFree_eq_none : p.firstFree = none ↔ ∀ i : Fin MAX_PULSES, (p.get i).on = true := by
  simp [firstFree]

theorem allocScan_eq (l : List (Fin MAX_PULSES)) (free : Option (Fin MAX_PULSES)) :
    allocScan p r c free l =
      if l.any fun i => (p.get i).names r c then none else free <|> l.find? fun i => !(p.get i).on := by
  induction l generalizing free with
  | nil => simp [allocScan]
  | cons i l ih =>
    rw [allocScan, ih, ih, List.any_cons, List.find?_cons, PulseEvent.names]
    cases (p.get i).on with
    | false => cases free <;> rfl
    | true => cases (p.get i).r == r <;> cases (p.get i).c == c <;> rfl

/-- The slot search of `connect`, `disconnect` and `setLevel`. -/
theorem alloc_eq : p.alloc r c = if p.pending r c then none else p.firstFree := by
  rw [alloc, allocScan_eq]
  rfl

theorem alloc_eq_some (h : p.alloc r c = some i) : p.pending r c = false ∧ (p.get i).on = false := by
  rw [alloc_eq] at h
  split at h
  · cases h
  · rename_i hp
    exact ⟨by simpa using hp, firstFree_eq_some h⟩

theorem reclaim_scan (l : List (Fin MAX_PULSES)) (free : Option (Fin MAX_PULSES))
    (h : ∀ i ∈ l, (p.get i).names r c = false) :
    l.foldl (reclaimTurn r c) (p, free) = (p, free <|> l.find? fun i => !(p.get i).on) := by
  induction l generalizing free with
  | nil => simp
  | cons i l ih =>
    have hi := h i List.mem_cons_self
    have ih := fun free => ih free fun j hj => h j (List.mem_cons_of_mem i hj)
    rw [List.foldl_cons, List.find?_cons, reclaimTurn, if_neg (Bool.eq_false_iff.mp hi)]
    cases (p.get i).on <;> cases free <;> exact ih _

/-- The slot search of `clearAll` at a node without a slot. -/
theorem reclaim_fresh (h : p.pending r c = false) : p.reclaim r c = (p, p.firstFree) := by
  rw [reclaim, reclaim_scan _ _ fun i _ => pending_eq_false.mp h i]
  rfl

/-- The slot search of `clearAll` at a node with a slot. -/
theorem Distinct.reclaim_own (h : p.Distinct) (hi : (p.get i).names r c = true) : p.reclaim r c = (p.freed i, some i) := by
  -- Before slot `i` the search only notes free slots; after it, nothing names the node any more.
  suffices ∀ (l : List (Fin MAX_PULSES)) (free : Option (Fin MAX_PULSES)), l.Nodup → i ∈ l →
      l.foldl (reclaimTurn r c) (p, free) = (p.freed i, some i) from
    this _ _ (List.nodup_finRange _) (List.mem_finRange i)
  intro l
  induction l with
  | nil => exact fun _ _ hmem => absurd hmem List.not_mem_nil
  | cons j l ih =>
    intro free hnd hmem
    obtain ⟨hjl, hnd⟩ := List.nodup_cons.mp hnd
    rw [List.foldl_cons]
    by_cases hij : i = j
    · subst hij
      have hrest : ∀ k ∈ l, ((p.freed i).get k).names r c = false := fun k hk => by
        have hik : i ≠ k := fun heq => hjl (heq ▸ hk)
        rw [names_freed, h.other hi hik, Bool.and_false]
      rw [reclaimTurn, if_pos hi]
      exact reclaim_scan l (some i) hrest
    · have hn : (p.get j).names r c = false := h.other hi hij
      have hi' : i ∈ l := (List.mem_cons.mp hmem).resolve_left hij
      have hturn : ∃ free', reclaimTurn r c (p, free) j = (p, free') := by
        rw [reclaimTurn, if_neg (Bool.eq_false_iff.mp hn)]
        split
        · exact ⟨some j, rfl⟩
        · exact ⟨free, rfl⟩
      obtain ⟨free', hturn⟩ := hturn
      rw [hturn]
      exact ih free' hnd hi'

/-! ### Expiry -/

section Expire
variable {now : UInt32} {pdur : UInt16} {s : PulseTable × List (UInt8 × UInt8)}

/-- The pulse that a slot is left with: freed if it is due. -/
def expired (now : UInt32) (pdur : UInt16) (e : PulseEvent) : PulseEvent :=
  if e.on = true ∧ due now pdur e = true then { e with on := false } else e

theorem expired_of_due (h : e.on = true ∧ due now pdur e = true) : expired now pdur e = { e with on := false } := if_pos h

theorem expired_of_not (h : ¬(e.on = true ∧ due now pdur e = true)) : expired now pdur e = e := if_neg h

theorem expired_on : (expired now pdur e).on = true ↔ e.on = true ∧ due now pdur e = false := by
  unfold expired
  split
  · rename_i h
    simp [h.2]
  · rename_i h
    refine ⟨fun hon => ⟨hon, ?_⟩, And.left⟩
    simpa using not_and.mp h hon

theorem expired_expired : expired now pdur (expired now pdur e) = expired now pdur e := by
  refine expired_of_not fun ⟨hon, hdue⟩ => ?_
  have h := expired_on.mp hon
  rw [expired_of_not (by simp [h.2]), h.2] at hdue
  cases hdue

theorem expireTurn_get : (expireTurn now pdur s i).1.get j = if i = j then expired now pdur (s.1.get j) else s.1.get j := by
  unfold expireTurn
  split
  · rename_i hoff
    split
    · rename_i hij
      subst hij
      refine (expired_of_not fun ⟨hon, _⟩ => ?_).symm
      rw [hon] at hoff
      cases hoff
    · rfl
  · rename_i hon
    split
    · rename_i hdue
      refine get_freed.trans ?_
      split
      · rename_i hij
        subst hij
        have hon : (s.1.get i).on = true := by simpa only [Bool.not_eq_true', Bool.not_eq_false] using hon
        exact (expired_of_due ⟨hon, hdue⟩).symm
      · rfl
    · rename_i hdue
      split
      · rename_i hij
        subst hij
        exact (expired_of_not fun h => hdue h.2).symm
      · rfl

theorem expire_scan (l : List (Fin MAX_PULSES)) : ∀ s : PulseTable × List (UInt8 × UInt8),
    (l.foldl (expireTurn now pdur) s).1.get j = if j ∈ l then expired now pdur (s.1.get j) else s.1.get j := by
  induction l with
  | nil => exact fun _ => rfl
  | cons i l ih =>
    intro s
    rw [List.foldl_cons, ih, expireTurn_get]
    by_cases hij : i = j
    · subst hij
      simp only [if_pos, List.mem_cons_self]
      split
      · exact expired_expired
      · rfl
    · simp only [if_neg hij, List.mem_cons, Ne.symm hij, false_or]

/-- `update` frees the slots whose pulses are due, and leaves the others as they are. -/
theorem expire_get : (p.expire now pdur).1.get j = expired now pdur (p.get j) := by
  rw [expire, expire_scan, if_pos (List.mem_finRange j)]

theorem expire_scan_released (l : List (Fin MAX_PULSES)) (hl : l.Nodup) : ∀ s : PulseTable × List (UInt8 × UInt8),
    (l.foldl (expireTurn now pdur) s).2 = s.2 ++
      (l.filter fun i => (s.1.get i).on && due now pdur (s.1.get i)).map fun i => ((s.1.get i).r, (s.1.get i).c) := by
  induction l with
  | nil => exact fun s => (List.append_nil s.2).symm
  | cons i l ih =>
    intro s
    obtain ⟨hil, hl⟩ := List.nodup_cons.mp hl
    -- The turn of slot `i` leaves the slots still to come as they are.
    have hrest : ∀ j ∈ l, (expireTurn now pdur s i).1.get j = s.1.get j := fun j hj => by
      rw [expireTurn_get, if_neg fun heq : i = j => hil (heq ▸ hj)]
    have hfilter :
        (l.filter fun j => ((expireTurn now pdur s i).1.get j).on && due now pdur ((expireTurn now pdur s i).1.get j)) =
        l.filter fun j => (s.1.get j).on && due now pdur (s.1.get j) :=
      List.filter_congr fun j hj => by rw [hrest j hj]
    have hmap : ∀ m : List (Fin MAX_PULSES), (∀ j ∈ m, j ∈ l) →
        (m.map fun j => (((expireTurn now pdur s i).1.get j).r, ((expireTurn now pdur s i).1.get j).c)) =
          m.map fun j => ((s.1.get j).r, (s.1.get j).c) := fun m hm =>
      List.map_congr_left fun j hj => by rw [hrest j (hm j hj)]
    rw [List.foldl_cons, ih hl, hfilter, hmap _ fun j hj => (List.mem_filter.mp hj).1, List.filter_cons]
    cases hon : (s.1.get i).on with
    | false => simp [expireTurn, hon]
    | true =>
      cases hdue : due now pdur (s.1.get i) with
      | false => simp [expireTurn, hon, hdue]
      | true => simp [expireTurn, hon, hdue]

/-- `update` releases the nodes of the slots that are due, in the order of the slots. -/
theorem expire_released : (p.expire now pdur).2 = ((List.finRange MAX_PULSES).filter fun i =>
    (p.get i).on && due now pdur (p.get i)).map fun i => ((p.get i).r, (p.get i).c) := by
  rw [expire, expire_scan_released _ (List.nodup_finRange _), List.nil_append]

def Idle (p : PulseTable) : Prop := ∀ i : Fin MAX_PULSES, (p.get i).on = false

theorem idle_init : init.Idle := fun i => congrArg PulseEvent.on (Vector.getElem_replicate i.isLt)

theorem Idle.pending (h : p.Idle) : p.pending r c = false :=
  pending_eq_false.mpr fun i => by
    rw [PulseEvent.names, h i]
    rfl

theorem Idle.distinct (h : p.Idle) : p.Distinct := fun i _ r c hi => by
  rw [PulseEvent.names, h i] at hi
  cases hi

theorem Idle.alloc (h : p.Idle) : ∃ i, p.alloc r c = some i := by
  rw [alloc_eq, h.pending]
  cases hf : p.firstFree with
  | none => exact absurd (firstFree_eq_none.mp hf 0) (Bool.eq_false_iff.mp (h 0))
  | some i => exact ⟨i, rfl⟩

theorem expire_idle (h : ∀ i : Fin MAX_PULSES, (p.get i).on = true → due now pdur (p.get i) = true) :
    (p.expire now pdur).1.Idle := by
  intro i
  rw [expire_get]
  refine Bool.eq_false_iff.mpr fun hon => ?_
  obtain ⟨hon, hdue⟩ := expired_on.mp hon
  rw [h i hon] at hdue
  cases hdue

end Expire

end Crosspoint.PulseTable
