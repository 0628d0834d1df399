import Crosspoint.Theorems.Room
import Mathlib.Data.List.Nodup

/-! What `clearAll` does to a latching matrix, exactly. The sweep visits the nodes row by row. A connected node
    with a slot restarts that slot; the other connected nodes take the free slots in the order of their
    index until none is left, and those that come later are cleared without being driven. -/

namespace Crosspoint
open Loops

namespace PulseTable
variable {p : PulseTable} {i : Fin MAX_PULSES} {is : List (Fin MAX_PULSES)} {e : PulseEvent} {r c : UInt8}

/-- The free slots, in the order of their index. -/
def vacant (p : PulseTable) : List (Fin MAX_PULSES) := (List.finRange MAX_PULSES).filter fun i => !(p.get i).on

theorem mem_vacant : i ∈ p.vacant ↔ (p.get i).on = false := by
  simp [vacant]

theorem firstFree_eq_head : p.firstFree = p.vacant.head? := List.head?_filter.symm

theorem vacant_nodup : p.vacant.Nodup := (List.nodup_finRange _).filter _

/-- The first free slot is taken. -/
theorem vacant_put (h : p.vacant = i :: is) (he : e.on = true) : vacant (p.put i e) = is := by
  have hnd := p.vacant_nodup
  rw [h, List.nodup_cons] at hnd
  calc vacant (p.put i e) = p.vacant.filter fun j => decide (i ≠ j) := by
        rw [vacant, vacant, List.filter_filter]
        refine List.filter_congr fun j _ => ?_
        rw [Vector.get_put]
        split
        · rename_i hij
          simp [he, hij]
        · rename_i hij
          simp [hij]
    _ = is := by
        rw [h, List.filter_cons, if_neg (by simp), List.filter_eq_self]
        rintro j hj
        have hij : i ≠ j := fun heq => hnd.1 (heq ▸ hj)
        simp [hij]

/-- A slot that is in use is written over. -/
theorem vacant_put_own (hi : (p.get i).on = true) (he : e.on = true) : vacant (p.put i e) = p.vacant := by
  refine List.filter_congr fun j _ => ?_
  rw [Vector.get_put]
  split
  · rename_i hij
    rw [he, ← hij, hi]
  · rfl

end PulseTable

namespace TableXPoint
open PulseTable
variable {a b : TableXPoint} {r c : UInt8} {now : UInt32} {l : List (UInt8 × UInt8)} {cs : List DriverCall}

/-- The nodes in the order in which the sweep visits them. -/
def nodes (rows cols : UInt8) : List (UInt8 × UInt8) := (below rows).flatMap fun r => (below cols).map fun c => (r, c)

def connected (a : TableXPoint) (l : List (UInt8 × UInt8)) : List (UInt8 × UInt8) := l.filter fun n => a.conn n.1 n.2

/-- The connected nodes without a slot. -/
def others (a : TableXPoint) (l : List (UInt8 × UInt8)) : List (UInt8 × UInt8) :=
  (a.connected l).filter fun n => !a.pulses.pending n.1 n.2

def sweep (now : UInt32) (l : List (UInt8 × UInt8)) (s : TableXPoint × List DriverCall) : TableXPoint × List DriverCall :=
  l.foldl (fun s n => clearNode now n.1 n.2 s) s

theorem mem_nodes {rows cols : UInt8} : (r, c) ∈ nodes rows cols ↔ r < rows ∧ c < cols := by
  simp [nodes]

theorem nodes_nodup (rows cols : UInt8) : (nodes rows cols).Nodup := (below_nodup rows).product (below_nodup cols)

/-- The sweep over the nodes `l` takes the tables `a` to `b`. -/
structure Cleared (a : TableXPoint) (now : UInt32) (l : List (UInt8 × UInt8)) (b : TableXPoint) : Prop where
  frame : b = { a with conn := b.conn, pulses := b.pulses }
  conn : ∀ r c, b.conn r c = true ↔ a.conn r c = true ∧ (r, c) ∉ l
  /-- A slot in use is restarted if its node was connected, and left alone otherwise. -/
  own : ∀ i r c, (a.pulses.get i).names r c = true →
    b.pulses.get i = if a.conn r c = true ∧ (r, c) ∈ l then ⟨r, c, now, true⟩ else a.pulses.get i
  /-- The free slots go to the nodes without one, in order. -/
  taken : ∀ (k : Nat) i, a.pulses.vacant[k]? = some i →
    b.pulses.get i = ((a.others l)[k]?).elim (a.pulses.get i) fun n => ⟨n.1, n.2, now, true⟩
  served : ∀ r c, b.pulses.pending r c = true ↔
    a.pulses.pending r c = true ∨ (r, c) ∈ (a.others l).take a.pulses.vacant.length

/-- The calls of the sweep: every connected node that holds a slot in the end is reset. -/
def resets (a : TableXPoint) (l : List (UInt8 × UInt8)) (b : TableXPoint) : List DriverCall :=
  ((a.connected l).filter fun n => b.pulses.pending n.1 n.2).map fun n => .setNodeHardware n.1 n.2 false

/-! ### One turn of the sweep -/

section Turn
variable {r₀ c₀ : UInt8} {i₀ : Fin MAX_PULSES} {is : List (Fin MAX_PULSES)} {p : PulseTable}

theorem conn_clear (h : (r, c) ≠ (r₀, c₀)) : (setPulses (a.setConn r₀ c₀ false) p).conn r c = a.conn r c :=
  setEntry_ne fun heq => h (Prod.ext heq.1 heq.2)

theorem connected_clear (hn : (r₀, c₀) ∉ l) : connected (setPulses (a.setConn r₀ c₀ false) p) l = a.connected l :=
  List.filter_congr fun _ hm => conn_clear fun heq => hn (heq ▸ hm)

theorem others_clear (hn : (r₀, c₀) ∉ l)
    (hp : ∀ r c, (r, c) ≠ (r₀, c₀) → (p.pending r c = true ↔ a.pulses.pending r c = true)) :
    others (setPulses (a.setConn r₀ c₀ false) p) l = a.others l := by
  rw [others, connected_clear hn]
  refine List.filter_congr fun n hm => ?_
  have hne : (n.1, n.2) ≠ (r₀, c₀) := fun heq => hn (heq ▸ (List.mem_filter.mp hm).1)
  exact congrArg not (Bool.eq_iff_iff.mpr (hp n.1 n.2 hne))

theorem clear_conn_iff : (setPulses (a.setConn r₀ c₀ false) p).conn r c = true ∧ (r, c) ∉ l ↔
    a.conn r c = true ∧ (r, c) ∉ (r₀, c₀) :: l := by
  have hc : (setPulses (a.setConn r₀ c₀ false) p).conn r c = true ↔ ¬(r = r₀ ∧ c = c₀) ∧ a.conn r c = true :=
    conn_setConn_false
  rw [hc, List.mem_cons, not_or, Prod.mk.injEq]
  exact ⟨fun h => ⟨h.1.2, h.1.1, h.2⟩, fun h => ⟨⟨h.2.1, h.1⟩, h.2.2⟩⟩

theorem connected_cons (hc : a.conn r₀ c₀ = true) : a.connected ((r₀, c₀) :: l) = (r₀, c₀) :: a.connected l :=
  List.filter_cons_of_pos hc

theorem connected_cons_off (hc : a.conn r₀ c₀ = false) : a.connected ((r₀, c₀) :: l) = a.connected l :=
  List.filter_cons_of_neg (p := fun n : UInt8 × UInt8 => a.conn n.1 n.2) (Bool.eq_false_iff.mp hc)

theorem others_cons (hc : a.conn r₀ c₀ = true) (hp : a.pulses.pending r₀ c₀ = false) :
    a.others ((r₀, c₀) :: l) = (r₀, c₀) :: a.others l := by
  rw [others, connected_cons hc]
  exact List.filter_cons_of_pos (by simp [hp])

theorem others_cons_own (hc : a.conn r₀ c₀ = true) (hp : a.pulses.pending r₀ c₀ = true) :
    a.others ((r₀, c₀) :: l) = a.others l := by
  rw [others, connected_cons hc]
  exact List.filter_cons_of_neg (by simp [hp])

/-- A slot that names another node than the one of this turn. -/
theorem own_other (hn : (r, c) ≠ (r₀, c₀)) {e e' : PulseEvent} :
    (if (setPulses (a.setConn r₀ c₀ false) p).conn r c = true ∧ (r, c) ∈ l then e else e') =
      if a.conn r c = true ∧ (r, c) ∈ (r₀, c₀) :: l then e else e' :=
  if_congr (by rw [conn_clear hn, List.mem_cons, or_iff_right hn]) rfl rfl

/-- A disconnected node is passed by. -/
theorem Cleared.off (hc : a.conn r₀ c₀ = false) (h : Cleared a now l b) : Cleared a now ((r₀, c₀) :: l) b := by
  have hoff : ∀ r c, a.conn r c = true → ((r, c) ∈ (r₀, c₀) :: l ↔ (r, c) ∈ l) := fun r c hrc => by
    rw [List.mem_cons, or_iff_right]
    rintro heq
    obtain ⟨rfl, rfl⟩ := Prod.mk.inj heq
    cases hc.symm.trans hrc
  have hothers : a.others ((r₀, c₀) :: l) = a.others l := by
    rw [others, connected_cons_off hc]
    rfl
  refine ⟨h.frame, fun r c => ?_, fun i r c hi => ?_, fun k i hk => ?_, fun r c => ?_⟩
  · rw [h.conn]
    exact and_congr_right fun hrc => not_congr (hoff r c hrc).symm
  · rw [h.own i r c hi]
    exact if_congr (and_congr_right fun hrc => (hoff r c hrc).symm) rfl rfl
  · rw [hothers, h.taken k i hk]
  · rw [hothers, h.served]

/-! The rest of the sweep after a turn that put the node of the turn into slot `i₀`. -/

section Put
variable (h : Cleared (setPulses (a.setConn r₀ c₀ false) (a.pulses.put i₀ ⟨r₀, c₀, now, true⟩)) now l b)
include h

theorem Cleared.placed (hn : (r₀, c₀) ∉ l) : b.pulses.get i₀ = ⟨r₀, c₀, now, true⟩ := by
  have hput := Vector.get_put (v := a.pulses) (i := i₀) (j := i₀) (x := ⟨r₀, c₀, now, true⟩)
  rw [if_pos rfl] at hput
  have hown := h.own i₀ r₀ c₀ (by
    change PulseEvent.names (Vector.get (a.pulses.put i₀ _) i₀) r₀ c₀ = true
    rw [hput]
    exact names_self rfl)
  rw [hown, if_neg fun hno => hn hno.2]
  exact hput

theorem Cleared.kept {i : Fin MAX_PULSES} (hii : i₀ ≠ i) (hne : (r, c) ≠ (r₀, c₀))
    (hi : (a.pulses.get i).names r c = true) :
    b.pulses.get i = if a.conn r c = true ∧ (r, c) ∈ (r₀, c₀) :: l then ⟨r, c, now, true⟩ else a.pulses.get i := by
  have hput := Vector.get_put (v := a.pulses) (i := i₀) (j := i) (x := ⟨r₀, c₀, now, true⟩)
  rw [if_neg hii] at hput
  have hown := h.own i r c (by
    change PulseEvent.names (Vector.get (a.pulses.put i₀ _) i) r c = true
    rwa [hput])
  rw [hown, own_other hne]
  exact congrArg _ hput

theorem Cleared.given {i : Fin MAX_PULSES} {k : Nat} (hii : i₀ ≠ i)
    (hk : (vacant (a.pulses.put i₀ ⟨r₀, c₀, now, true⟩))[k]? = some i)
    (hothers : others (setPulses (a.setConn r₀ c₀ false) (a.pulses.put i₀ ⟨r₀, c₀, now, true⟩)) l = a.others l) :
    b.pulses.get i = ((a.others l)[k]?).elim (a.pulses.get i) fun n => ⟨n.1, n.2, now, true⟩ := by
  rw [h.taken k i hk, hothers]
  exact congrArg (Option.elim _ · _) (Vector.get_put.trans (if_neg hii))

end Put

/-- A connected node with a slot restarts it. -/
theorem Cleared.restart (hd : a.pulses.Distinct) (hn : (r₀, c₀) ∉ l) (hc : a.conn r₀ c₀ = true)
    (hi₀ : (a.pulses.get i₀).names r₀ c₀ = true)
    (h : Cleared (setPulses (a.setConn r₀ c₀ false) (a.pulses.put i₀ ⟨r₀, c₀, now, true⟩)) now l b) :
    Cleared a now ((r₀, c₀) :: l) b := by
  have hon := (names_iff.mp hi₀).1
  have hp₀ : a.pulses.pending r₀ c₀ = true := pending_iff.mpr ⟨i₀, hi₀⟩
  have hpend : ∀ r c, pending (a.pulses.put i₀ ⟨r₀, c₀, now, true⟩) r c = true ↔ a.pulses.pending r c = true :=
    fun r c => by
    refine (pending_put (.inr hi₀) rfl).trans (or_iff_right_of_imp ?_)
    rintro ⟨rfl, rfl⟩
    exact hp₀
  have hothers := others_clear hn fun r c _ => hpend r c
  have hvacant : vacant (a.pulses.put i₀ ⟨r₀, c₀, now, true⟩) = a.pulses.vacant := vacant_put_own hon rfl
  refine ⟨h.frame, fun r c => (h.conn r c).trans clear_conn_iff, fun i r c hi => ?_, fun k i hk => ?_, fun r c => ?_⟩
  · by_cases hii : i₀ = i
    · -- The slot of the node itself: restarted now, and not touched by the rest of the sweep.
      subst hii
      obtain ⟨-, hr, hc'⟩ := names_iff.mp hi₀
      obtain ⟨-, rfl, rfl⟩ := names_iff.mp hi
      subst hr hc'
      rw [h.placed hn, if_pos ⟨hc, List.mem_cons_self⟩]
    · have hne : (r, c) ≠ (r₀, c₀) := fun heq => by
        obtain ⟨rfl, rfl⟩ := Prod.mk.inj heq
        exact hii (hd i₀ i r c hi₀ hi)
      exact h.kept hii hne hi
  · have hii : i₀ ≠ i := fun heq => by
      have hoff := mem_vacant.mp (List.mem_of_getElem? hk)
      rw [← heq, hon] at hoff
      cases hoff
    rw [others_cons_own hc hp₀]
    exact h.given hii (hvacant ▸ hk) hothers
  · rw [h.served, hothers, others_cons_own hc hp₀, ← hpend r c, ← hvacant]
    rfl

/-- A connected node without a slot takes the first free one. -/
theorem Cleared.take (hn : (r₀, c₀) ∉ l) (hc : a.conn r₀ c₀ = true) (hp₀ : a.pulses.pending r₀ c₀ = false)
    (hv : a.pulses.vacant = i₀ :: is)
    (h : Cleared (setPulses (a.setConn r₀ c₀ false) (a.pulses.put i₀ ⟨r₀, c₀, now, true⟩)) now l b) :
    Cleared a now ((r₀, c₀) :: l) b := by
  have hoff : (a.pulses.get i₀).on = false := mem_vacant.mp (hv ▸ List.mem_cons_self)
  have hpend : ∀ r c, pending (a.pulses.put i₀ ⟨r₀, c₀, now, true⟩) r c = true ↔
      (r = r₀ ∧ c = c₀) ∨ a.pulses.pending r c = true := fun r c => pending_put (.inl hoff) rfl
  have hothers := others_clear hn fun r c hne => (hpend r c).trans (or_iff_right fun heq => hne (Prod.ext heq.1 heq.2))
  have hvacant : vacant (a.pulses.put i₀ ⟨r₀, c₀, now, true⟩) = is := vacant_put hv rfl
  refine ⟨h.frame, fun r c => (h.conn r c).trans clear_conn_iff, fun i r c hi => ?_, fun k i hk => ?_, fun r c => ?_⟩
  · have hii : i₀ ≠ i := fun heq => by
      rw [← heq, PulseEvent.names, hoff] at hi
      cases hi
    have hne : (r, c) ≠ (r₀, c₀) := fun heq => by
      obtain ⟨rfl, rfl⟩ := Prod.mk.inj heq
      cases hp₀.symm.trans (pending_iff.mpr ⟨i, hi⟩)
    exact h.kept hii hne hi
  · have hnd := a.pulses.vacant_nodup
    rw [hv] at hk hnd
    rw [others_cons hc hp₀]
    cases k with
    | zero =>
      obtain rfl : i₀ = i := Option.some.inj hk
      exact h.placed hn
    | succ k =>
      have hii : i₀ ≠ i := fun heq => (List.nodup_cons.mp hnd).1 (heq ▸ List.mem_of_getElem? hk)
      exact h.given hii (hvacant ▸ hk) hothers
  · have hserved := h.served r c
    rw [hothers] at hserved
    refine hserved.trans ?_
    rw [others_cons hc hp₀, hv, List.length_cons, List.take_succ_cons, List.mem_cons, Prod.mk.injEq]
    change pending (a.pulses.put i₀ _) r c = true ∨ (r, c) ∈ (a.others l).take (vacant (a.pulses.put i₀ _)).length ↔ _
    rw [hpend, hvacant]
    exact or_assoc.trans or_left_comm

/-- A connected node without a slot is passed over when no slot is free. -/
theorem Cleared.pass (hn : (r₀, c₀) ∉ l) (hc : a.conn r₀ c₀ = true) (hp₀ : a.pulses.pending r₀ c₀ = false)
    (hv : a.pulses.vacant = []) (h : Cleared (a.setConn r₀ c₀ false) now l b) : Cleared a now ((r₀, c₀) :: l) b := by
  refine ⟨h.frame, fun r c => (h.conn r c).trans clear_conn_iff, fun i r c hi => ?_, fun k i hk => ?_, fun r c => ?_⟩
  · have hne : (r, c) ≠ (r₀, c₀) := fun heq => by
      obtain ⟨rfl, rfl⟩ := Prod.mk.inj heq
      cases hp₀.symm.trans (pending_iff.mpr ⟨i, hi⟩)
    exact (h.own i r c hi).trans (own_other hne)
  · rw [hv] at hk
    cases hk
  · refine (h.served r c).trans ?_
    change a.pulses.pending r c = true ∨ (r, c) ∈ List.take a.pulses.vacant.length _ ↔ _
    rw [hv, List.length_nil, List.take_zero, List.take_zero]

theorem resets_off (hc : a.conn r₀ c₀ = false) : a.resets ((r₀, c₀) :: l) b = a.resets l b := by
  rw [resets, connected_cons_off hc]
  rfl

theorem resets_driven (hn : (r₀, c₀) ∉ l) (hc : a.conn r₀ c₀ = true) (hb : b.pulses.pending r₀ c₀ = true) :
    a.resets ((r₀, c₀) :: l) b = .setNodeHardware r₀ c₀ false :: resets (setPulses (a.setConn r₀ c₀ false) p) l b := by
  rw [resets, resets, connected_cons hc, connected_clear hn, List.filter_cons_of_pos (by exact hb), List.map_cons]

theorem resets_passed (hn : (r₀, c₀) ∉ l) (hc : a.conn r₀ c₀ = true) (hb : b.pulses.pending r₀ c₀ = false) :
    a.resets ((r₀, c₀) :: l) b = resets (a.setConn r₀ c₀ false) l b := by
  have hconn : connected (a.setConn r₀ c₀ false) l = a.connected l := connected_clear (p := a.pulses) hn
  rw [resets, resets, connected_cons hc, hconn, List.filter_cons_of_neg (by exact Bool.eq_false_iff.mp hb)]

end Turn

/-! ### The sweep -/

/-- The sweep over `l` from the tables `a`, after the calls `cs`, ends in `s`. -/
structure SweptTo (a : TableXPoint) (now : UInt32) (l : List (UInt8 × UInt8)) (cs : List DriverCall)
    (s : TableXPoint × List DriverCall) : Prop where
  cleared : Cleared a now l s.1
  calls : s.2 = cs ++ a.drive (a.resets l s.1)

/-- A turn that drives its node, and the rest of the sweep. -/
theorem SweptTo.driven {r₀ c₀ : UInt8} {p : PulseTable} {s : TableXPoint × List DriverCall} (hn : (r₀, c₀) ∉ l)
    (hc : a.conn r₀ c₀ = true) (hslot : a.pulses.pending r₀ c₀ = true ∨ a.pulses.vacant ≠ [])
    (hs : SweptTo (setPulses (a.setConn r₀ c₀ false) p) now l (cs ++ a.drive [.setNodeHardware r₀ c₀ false]) s)
    (h : Cleared a now ((r₀, c₀) :: l) s.1) : SweptTo a now ((r₀, c₀) :: l) cs s := by
  refine ⟨h, ?_⟩
  have hb : s.1.pulses.pending r₀ c₀ = true := (h.served r₀ c₀).mpr (by
    cases hp : a.pulses.pending r₀ c₀ with
    | true => exact .inl rfl
    | false =>
      rcases hslot with hslot | hslot
      · cases hp.symm.trans hslot
      · obtain ⟨i, is, hv⟩ := List.exists_cons_of_ne_nil hslot
        rw [others_cons hc hp, hv, List.length_cons, List.take_succ_cons]
        exact .inr List.mem_cons_self)
  rw [hs.calls, resets_driven hn hc hb, List.append_assoc]
  exact congrArg _ (drive_append [_] _).symm

/-- The sweep over distinct nodes of a latching matrix. -/
theorem sweep_ends (now : UInt32) (cs : List DriverCall) (hl : l.Nodup) (ht : a.type = .latchingDualCoil)
    (hd : a.pulses.Distinct) : SweptTo a now l cs (sweep now l (a, cs)) := by
  induction l generalizing a cs with
  | nil =>
    refine ⟨⟨rfl, fun r c => ?_, fun i r c _ => ?_, fun k i _ => rfl, fun r c => ?_⟩, ?_⟩
    · exact ⟨fun h => ⟨h, List.not_mem_nil⟩, And.left⟩
    · exact (if_neg fun h => List.not_mem_nil h.2).symm
    · rw [others, connected, List.filter_nil, List.filter_nil, List.take_nil]
      exact (or_iff_left List.not_mem_nil).symm
    · change cs = cs ++ a.drive []
      rw [drive_nil, List.append_nil]
  | cons n l ih =>
    obtain ⟨r₀, c₀⟩ := n
    obtain ⟨hn, hl⟩ := List.nodup_cons.mp hl
    change SweptTo a now ((r₀, c₀) :: l) cs (sweep now l (clearNode now r₀ c₀ (a, cs)))
    cases hc : a.conn r₀ c₀ with
    | false =>
      rw [clearNode_off hc]
      have hs := ih cs hl ht hd
      exact ⟨hs.cleared.off hc, by rw [hs.calls, resets_off hc]⟩
    | true =>
      cases hp : a.pulses.pending r₀ c₀ with
      | true =>
        obtain ⟨i₀, hi₀⟩ := pending_iff.mp hp
        rw [clearNode_own hd hc ht hi₀]
        have hs := ih (a := setPulses (a.setConn r₀ c₀ false) (a.pulses.put i₀ ⟨r₀, c₀, now, true⟩))
          (cs ++ a.drive [.setNodeHardware r₀ c₀ false]) hl ht (hd.put_own hi₀)
        exact hs.driven hn hc (.inl hp) (hs.cleared.restart hd hn hc hi₀)
      | false =>
        cases hv : a.pulses.vacant with
        | cons i₀ is =>
          have hfree : a.pulses.firstFree = some i₀ := by rw [firstFree_eq_head, hv, List.head?_cons]
          rw [clearNode_fresh hc ht hp hfree]
          have hs := ih (a := setPulses (a.setConn r₀ c₀ false) (a.pulses.put i₀ ⟨r₀, c₀, now, true⟩))
            (cs ++ a.drive [.setNodeHardware r₀ c₀ false]) hl ht (hd.put_fresh hp)
          exact hs.driven hn hc (.inr (by simp [hv])) (hs.cleared.take hn hc hp hv)
        | nil =>
          have hfull : a.pulses.firstFree = none := by rw [firstFree_eq_head, hv, List.head?_nil]
          rw [clearNode_full hc ht hp hfull]
          have hs := ih (a := a.setConn r₀ c₀ false) cs hl ht hd
          have h := hs.cleared.pass hn hc hp hv
          have hb : (sweep now l (a.setConn r₀ c₀ false, cs)).1.pulses.pending r₀ c₀ = false := by
            refine Bool.eq_false_iff.mpr fun hb => ?_
            have hserved := (h.served r₀ c₀).mp hb
            rw [hv, hp, List.length_nil, List.take_zero] at hserved
            simp at hserved
          exact ⟨h, by rw [hs.calls, resets_passed hn hc hb]; rfl⟩

theorem clearAll_eq_sweep (hv : a.valid = true) (ht : a.type = .latchingDualCoil) (millis : Clock) :
    a.clearAll millis = ((sweep (millis 0) (nodes a.rows a.cols) (a, [])).1,
      ⟨none, (sweep (millis 0) (nodes a.rows a.cols) (a, [])).2 ++ a.drive [.commitPhysicalUpdates]⟩) := by
  simp only [clearAll, hv, ht, sweep, nodes, List.foldl_flatMap, List.foldl_map]
  rfl

theorem clearAll_ends (hv : a.valid = true) (ht : a.type = .latchingDualCoil) (hd : a.pulses.Distinct) (millis : Clock) :
    Cleared a (millis 0) (nodes a.rows a.cols) (a.clearAll millis).1 ∧ (a.clearAll millis).2 =
      ⟨none, a.drive (a.resets (nodes a.rows a.cols) (a.clearAll millis).1 ++ [.commitPhysicalUpdates])⟩ := by
  have hs := sweep_ends (millis 0) [] (nodes_nodup a.rows a.cols) ht hd
  rw [clearAll_eq_sweep hv ht]
  refine ⟨hs.cleared, ?_⟩
  dsimp only
  rw [hs.calls, List.nil_append, ← drive_append]

end TableXPoint

namespace XPoint
open TableXPoint
variable {x : XPoint} {r c : UInt8}

/-- `clearAll` on a matrix whose bits are all false writes nothing. -/
theorem clearAll_blank (h : x.WellFormed) (hv : x.pool.valid = true) (hoff : ∀ r c, x.tables.conn r c = false)
    (millis : Clock) : x.clearAll millis = some (x, ⟨none, x.drive [.commitPhysicalUpdates]⟩) := by
  have hturn : ∀ now : UInt32, ∀ r ∈ below x.rows, ∀ c ∈ below x.cols, clearNode now r c (x, []) = some (x, []) := by
    intro now r hr c hc
    rw [clearNode, (refines_tables h).conn hv r c (mem_below.mp hr) (mem_below.mp hc), hoff]
    rfl
  have hrow : ∀ now : UInt32, ∀ r ∈ below x.rows,
      (below x.cols).foldlM (fun s c => clearNode now r c s) (x, []) = some (x, []) := fun now r hr =>
    foldlM_fixed (hturn now r hr)
  simp only [clearAll, hv, Bool.not_true, Bool.false_eq_true, ↓reduceIte]
  rw [foldlM_fixed (hrow _)]
  rfl

/-- `clearAll` on a latching matrix: every bit is cleared, connected nodes with a slot restart it, the others
    take the free slots in order, and exactly the connected nodes that hold a slot in the end are reset.
    Called again at once, it only commits. -/
theorem clearAll_exact (h : x.WellFormed) (hv : x.pool.valid = true) (ht : x.type = .latchingDualCoil)
    (hd : x.pulses.Distinct) (millis : Clock) : ∃ x' rep, x.clearAll millis = some (x', rep) ∧
      (∀ r c, x'.tables.conn r c = false) ∧ Cleared x.tables (millis 0) (nodes x.rows x.cols) x'.tables ∧
      rep = ⟨none, x.drive (x.tables.resets (nodes x.rows x.cols) x'.tables ++ [.commitPhysicalUpdates])⟩ ∧
      ∀ millis', x'.clearAll millis' = some (x', ⟨none, x'.drive [.commitPhysicalUpdates]⟩) := by
  obtain ⟨x', rep, hclear, hwf, hx'⟩ := clearAll_matches h millis
  obtain ⟨hcleared, hrep⟩ := TableXPoint.clearAll_ends (a := x.tables) hv ht hd millis
  rw [hx'] at hcleared hrep
  have hrows : x'.rows = x.rows := congrArg TableXPoint.rows hcleared.frame
  have hcols : x'.cols = x.cols := congrArg TableXPoint.cols hcleared.frame
  have hv' : x'.pool.valid = true := (congrArg TableXPoint.valid hcleared.frame).trans hv
  have hoff : ∀ r c, x'.tables.conn r c = false := fun r c => by
    refine Bool.eq_false_iff.mpr fun hconn => ?_
    have hin := (framed_tables x').conn r c hconn
    exact ((hcleared.conn r c).mp hconn).2 (mem_nodes.mpr ⟨lt_of_lt_of_eq hin.1 hrows, lt_of_lt_of_eq hin.2 hcols⟩)
  exact ⟨x', rep, hclear, hoff, hcleared, hrep, clearAll_blank hwf hv' hoff⟩

/-- Three pulses in flight or to come: `(1, 1)` is connected and has a slot, `(0, 0)` is connected and has none, and
    `(2, 0)` is on its way off. -/
theorem clearAll_exact_three_by_two :
    let ops : List (Op × Clock) :=
      [(.setDriver (some 0), fun _ => 0), (.connect 2 0, fun _ => 0), (.connect 0 0, fun _ => 0),
      (.update, fun _ => 5), (.disconnect 2 0, fun _ => 6), (.connect 1 1, fun _ => 6)]
    ∃ x y log x' rep, heap 3 2 .latchingDualCoil 5 = some x ∧ x.run ops = some (y, log) ∧ y.drv = some 0 ∧
      y.tables.connected (nodes y.rows y.cols) = [(0, 0), (1, 1)] ∧ y.tables.others (nodes y.rows y.cols) = [(0, 0)] ∧
      y.clearAll (fun _ => 7) = some (x', rep) ∧ (∀ r c, x'.tables.conn r c = false) ∧
      Cleared y.tables 7 (nodes y.rows y.cols) x'.tables ∧
      rep = ⟨none, y.drive (y.tables.resets (nodes y.rows y.cols) x'.tables ++ [.commitPhysicalUpdates])⟩ ∧
      ∀ millis', x'.clearAll millis' = some (x', ⟨none, x'.drive [.commitPhysicalUpdates]⟩) := by
  intro ops
  have hends : ((heap 3 2 .latchingDualCoil 5).bind fun x => (x.run ops).map fun p =>
      ((p.1.pool.valid, p.1.type, p.1.drv), p.1.tables.connected (nodes p.1.rows p.1.cols),
        p.1.tables.others (nodes p.1.rows p.1.cols))) =
        some ((true, .latchingDualCoil, some 0), [(0, 0), (1, 1)], [(0, 0)]) := by
    decide +kernel
  obtain ⟨x, y, log, hx, hrun, hy⟩ := Machine.run_of_bind hends
  simp only [Prod.mk.injEq] at hy
  obtain ⟨⟨hv, htype, hdrv⟩, hconnected, hothers⟩ := hy
  have hb : Built 3 2 .latchingDualCoil 5 x := .heap hx
  obtain ⟨hwf, hd⟩ := run_wellFormed hb.spec.1 hb.distinct hrun
  obtain ⟨x', rep, hclear⟩ := clearAll_exact hwf hv htype hd fun _ => 7
  exact ⟨x, y, log, x', rep, hx, hrun, hdrv, hconnected, hothers, hclear⟩

end XPoint

end Crosspoint
