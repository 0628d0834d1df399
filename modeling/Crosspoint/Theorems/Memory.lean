import Crosspoint.Theorems.Refinement

/-! A matrix on the caller's buffer keeps to the words that `poolWords` asks for. It works on them as a matrix of the
    same size does on its heap pool, whatever stands after them, and leaves that as it is. -/

namespace Crosspoint
open Loops

/-! ### The pool -/

namespace BitPool
variable {p q : BitPool} {tail : Array UInt32} {n : UInt32} {v : Bool}

/-- The pool with more words behind it than it is told of. -/
def extend (tail : Array UInt32) (p : BitPool) : BitPool := { p with words := p.words.map (· ++ tail) }

/-- The pool has just the words that it is told of. -/
def Full (p : BitPool) : Prop := ∃ words, p.words = some words ∧ words.size = p.nWords.toNat

theorem wordIndex_lt {i : Nat} (h : p.wordIndex n = some i) : i < p.nWords.toNat := by
  obtain ⟨-, hi, rfl⟩ := wordIndex_eq_some.mp h
  exact hi

theorem words_extend {words : Array UInt32} (h : p.words = some words) : (p.extend tail).words = some (words ++ tail) :=
  congrArg (Option.map (· ++ tail)) h

theorem Full.get_extend (h : p.Full) (n : UInt32) : (p.extend tail).get n = p.get n := by
  obtain ⟨words, hw, hsize⟩ := h
  have hindex : (p.extend tail).wordIndex n = p.wordIndex n := rfl
  simp only [get, hindex, words_extend hw, hw, Option.bind_eq_bind, Option.bind_some]
  cases hi : p.wordIndex n with
  | none => rfl
  | some i =>
    have hlt : i < words.size := (wordIndex_lt hi).trans_eq hsize.symm
    rw [Option.bind_some, Option.bind_some, Array.getElem?_append_left hlt]

theorem Full.set_extend (h : p.Full) (n : UInt32) (v : Bool) : (p.extend tail).set n v = (p.set n v).map (extend tail) := by
  obtain ⟨words, hw, hsize⟩ := h
  have hindex : (p.extend tail).wordIndex n = p.wordIndex n := rfl
  simp only [set, hindex, words_extend hw, hw, Option.bind_eq_bind, Option.bind_some]
  cases hi : p.wordIndex n with
  | none => rfl
  | some i =>
    have hlt : i < words.size := (wordIndex_lt hi).trans_eq hsize.symm
    rw [Option.bind_some, Option.bind_some, Array.getElem?_append_left hlt, Array.getElem?_eq_getElem hlt, Option.bind_some,
      Option.bind_some, Array.setIfInBounds_append_left hlt]
    rfl

theorem Full.set (h : p.Full) (hset : p.set n v = some q) : q.Full := by
  obtain ⟨words, hw, hsize⟩ := h
  simp only [BitPool.set, bind, Option.bind_eq_some_iff] at hset
  obtain ⟨words', hw', i, -, w, -, hq⟩ := hset
  obtain rfl := Option.some.inj (hw.symm.trans hw')
  obtain rfl := Option.some.inj hq
  exact ⟨_, rfl, by rw [Array.size_setIfInBounds, hsize]⟩

end BitPool

/-! ### The matrix -/

namespace XPoint
variable {x x' : XPoint} {tail : Array UInt32} {row col r c : UInt8} {millis : Clock} {on : Bool}

/-! ### What happens to the pool -/

section Pool
variable {P : BitPool → Prop} (hset : ∀ p n v q, P p → BitPool.set p n v = some q → P q) {rep : Reply}

theorem kept_pool {rep₀ : Reply} (h : P x.pool) (hx : some (x, rep₀) = some (x', rep)) : P x'.pool := by
  obtain ⟨rfl, -⟩ := Prod.mk.inj (Option.some.inj hx)
  exact h

include hset

theorem switchNode_pool (h : P x.pool) (hx : x.switchNode millis row col on = some (x', rep)) : P x'.pool := by
  unfold switchNode at hx
  dsimp only at hx
  split at hx
  · split at hx
    · exact kept_pool h hx
    · obtain ⟨q, hq, hx⟩ := Option.bind_eq_some_iff.mp hx
      exact kept_pool (hset _ _ _ q h hq) hx
  · obtain ⟨q, hq, hx⟩ := Option.bind_eq_some_iff.mp hx
    exact kept_pool (hset _ _ _ q h hq) hx

theorem connect_pool (h : P x.pool) (hx : x.connect millis row col = some (x', rep)) : P x'.pool := by
  unfold connect at hx
  split at hx
  · exact kept_pool h hx
  · obtain ⟨b, -, hx⟩ := Option.bind_eq_some_iff.mp hx
    split at hx
    · exact kept_pool h hx
    · obtain ⟨bit, -, hx⟩ := Option.bind_eq_some_iff.mp hx
      split at hx
      · exact kept_pool h hx
      · exact switchNode_pool hset h hx

theorem disconnect_pool (h : P x.pool) (hx : x.disconnect millis row col = some (x', rep)) : P x'.pool := by
  unfold disconnect at hx
  split at hx
  · exact kept_pool h hx
  · obtain ⟨bit, -, hx⟩ := Option.bind_eq_some_iff.mp hx
    split at hx
    · exact kept_pool h hx
    · exact switchNode_pool hset h hx

theorem setLevel_pool {level : UInt16} (h : P x.pool) (hx : x.setLevel millis row col level = some (x', rep)) :
    P x'.pool := by
  unfold setLevel at hx
  split at hx
  · exact kept_pool h hx
  · obtain ⟨b, -, hx⟩ := Option.bind_eq_some_iff.mp hx
    split at hx
    · exact kept_pool h hx
    · split at hx
      · obtain ⟨bit, -, hx⟩ := Option.bind_eq_some_iff.mp hx
        split at hx
        · exact kept_pool h hx
        · exact switchNode_pool hset h hx
      · obtain ⟨q, hq, hx⟩ := Option.bind_eq_some_iff.mp hx
        exact kept_pool (hset _ _ _ q h hq) hx

theorem clearNode_pool {s t : XPoint × List DriverCall} {now : UInt32} (h : P s.1.pool)
    (ht : clearNode now r c s = some t) : P t.1.pool := by
  unfold clearNode at ht
  obtain ⟨bit, -, ht⟩ := Option.bind_eq_some_iff.mp ht
  split at ht
  · obtain rfl := Option.some.inj ht
    exact h
  · obtain ⟨q, hq, ht⟩ := Option.bind_eq_some_iff.mp ht
    have hq := hset _ _ _ q h hq
    dsimp only at ht
    split at ht
    · split at ht <;> obtain rfl := Option.some.inj ht <;> exact hq
    · obtain rfl := Option.some.inj ht
      exact hq

theorem clearAll_pool (h : P x.pool) (hx : x.clearAll millis = some (x', rep)) : P x'.pool := by
  unfold clearAll at hx
  split at hx
  · exact kept_pool h hx
  · obtain ⟨s, hs, hx⟩ := Option.bind_eq_some_iff.mp hx
    obtain ⟨rfl, -⟩ := Prod.mk.inj (Option.some.inj hx)
    refine foldlM_keeps (I := fun s => P s.1.pool) (fun r _ s t hs ht => ?_) h hs
    exact foldlM_keeps (I := fun s => P s.1.pool) (fun c _ s t hs ht => clearNode_pool hset hs ht) hs ht

theorem lockRows_pool {rowA rowB : UInt8} (h : P x.pool) (hx : x.lockRows rowA rowB = some (x', rep)) : P x'.pool := by
  unfold lockRows at hx
  split at hx
  · exact kept_pool h hx
  · obtain ⟨p, hp, hx⟩ := Option.bind_eq_some_iff.mp hx
    obtain ⟨q, hq, hx⟩ := Option.bind_eq_some_iff.mp hx
    exact kept_pool (hset _ _ _ q (hset _ _ _ p h hp) hq) hx

theorem exclusiveInput_pool (h : P x.pool) (hx : x.exclusiveInput col = some (x', rep)) : P x'.pool := by
  unfold exclusiveInput at hx
  split at hx
  · exact kept_pool h hx
  · obtain ⟨q, hq, hx⟩ := Option.bind_eq_some_iff.mp hx
    exact kept_pool (hset _ _ _ q h hq) hx

omit hset in
theorem update_pool : (x.update millis).1.pool = x.pool := by
  unfold update
  split
  · rfl
  · generalize x.pulses.expire (millis 0) x.pdur = u
    rfl

/-- What every write of one bit keeps, every operation keeps. -/
theorem step_pool {i : Op × Clock} (h : P x.pool) (hx : x.step i = some (x', rep)) : P x'.pool := by
  obtain ⟨op, millis⟩ := i
  unfold step at hx
  cases op with
  | setDriver drv =>
    obtain ⟨rfl, -⟩ := Prod.mk.inj (Option.some.inj hx)
    exact h
  | begin => exact kept_pool h hx
  | connect row col => exact connect_pool hset h hx
  | disconnect row col => exact disconnect_pool hset h hx
  | setLevel row col level => exact setLevel_pool hset h hx
  | clearAll => exact clearAll_pool hset h hx
  | lockRows rowA rowB => exact lockRows_pool hset h hx
  | exclusiveInput col => exact exclusiveInput_pool hset h hx
  | update =>
    have hx' : (x.update millis).1 = x' := congrArg Prod.fst (Option.some.inj hx)
    rw [← hx', update_pool]
    exact h

end Pool

/-! ### The words behind the pool -/

/-- The matrix with more words behind its pool. -/
def extend (tail : Array UInt32) (x : XPoint) : XPoint := x.setPool (x.pool.extend tail)

/-- The same outcome with more words behind the pool. -/
def extended {α : Type} (tail : Array UInt32) (s : XPoint × α) : XPoint × α := (s.1.extend tail, s.2)

theorem occupied_extend (h : x.pool.Full) : (x.extend tail).occupied r col = x.occupied r col := by
  have hget : (x.extend tail).pool.get (x.nodeBit r col) = x.pool.get (x.nodeBit r col) := h.get_extend _
  change ((x.extend tail).pool.get (x.nodeBit r col) <||> pure (x.pulses.pending r col)) = _
  rw [hget]
  rfl

theorem blocked_extend (h : x.pool.Full) : (x.extend tail).blocked row col = x.blocked row col := by
  have hget : (x.extend tail).pool.get = x.pool.get := funext h.get_extend
  have hoccupied : (x.extend tail).occupied = x.occupied := funext₂ fun _ _ => occupied_extend h
  have hinter : (x.extend tail).interlocked row col = x.interlocked row col := by
    rw [interlocked, hget, hoccupied]
    rfl
  have hexcl : (x.extend tail).exclusiveTaken row col = x.exclusiveTaken row col := by
    rw [exclusiveTaken, hget, hoccupied]
    rfl
  rw [blocked, hinter, hexcl]
  rfl

theorem switchNode_extend (h : x.pool.Full) :
    (x.extend tail).switchNode millis row col on = (x.switchNode millis row col on).map (extended tail) := by
  have hset : (x.extend tail).pool.set (x.nodeBit row col) on =
      (x.pool.set (x.nodeBit row col) on).map (BitPool.extend tail) :=
    h.set_extend _ _
  have hbit : (x.extend tail).nodeBit row col = x.nodeBit row col := rfl
  have htype : (x.extend tail).type = x.type := rfl
  have hpulses : (x.extend tail).pulses = x.pulses := rfl
  unfold switchNode
  rw [hbit, hset, htype, hpulses]
  cases x.type with
  | latchingDualCoil =>
    dsimp only
    cases x.pulses.alloc row col with
    | none => rfl
    | some slot => cases x.pool.set (x.nodeBit row col) on <;> rfl
  | nonLatching => cases x.pool.set (x.nodeBit row col) on <;> rfl

theorem valid_extend : (x.extend tail).pool.valid = x.pool.valid := Option.isSome_map ..

theorem connect_extend (h : x.pool.Full) :
    (x.extend tail).connect millis row col = (x.connect millis row col).map (extended tail) := by
  have hget : (x.extend tail).pool.get ((x.extend tail).nodeBit row col) = x.pool.get (x.nodeBit row col) := h.get_extend _
  unfold connect
  rw [valid_extend, blocked_extend h, hget, switchNode_extend h]
  change (if !x.pool.valid || decide (row ≥ x.rows) || decide (col ≥ x.cols) then _ else _) = _
  split
  · rfl
  · cases x.blocked row col with
    | none => rfl
    | some b =>
      cases b with
      | true => rfl
      | false =>
        cases x.pool.get (x.nodeBit row col) with
        | none => rfl
        | some bit => cases bit <;> rfl

theorem disconnect_extend (h : x.pool.Full) :
    (x.extend tail).disconnect millis row col = (x.disconnect millis row col).map (extended tail) := by
  have hget : (x.extend tail).pool.get ((x.extend tail).nodeBit row col) = x.pool.get (x.nodeBit row col) := h.get_extend _
  unfold disconnect
  rw [valid_extend, hget, switchNode_extend h]
  change (if !x.pool.valid || decide (row ≥ x.rows) || decide (col ≥ x.cols) then _ else _) = _
  split
  · rfl
  · cases x.pool.get (x.nodeBit row col) with
    | none => rfl
    | some bit => cases bit <;> rfl

theorem setLevel_extend (h : x.pool.Full) (level : UInt16) :
    (x.extend tail).setLevel millis row col level = (x.setLevel millis row col level).map (extended tail) := by
  have hget : (x.extend tail).pool.get ((x.extend tail).nodeBit row col) = x.pool.get (x.nodeBit row col) := h.get_extend _
  have hset (on : Bool) : (x.extend tail).pool.set ((x.extend tail).nodeBit row col) on =
      (x.pool.set (x.nodeBit row col) on).map (BitPool.extend tail) := h.set_extend _ _
  have htype : (x.extend tail).type = x.type := rfl
  unfold setLevel
  dsimp only
  rw [valid_extend, blocked_extend h, hget, switchNode_extend h, hset, htype]
  change (if !x.pool.valid || decide (row ≥ x.rows) || decide (col ≥ x.cols) then _ else _) = _
  split
  · rfl
  · cases (pure (decide (level > 0)) <&&> x.blocked row col : Option Bool) with
    | none => rfl
    | some b =>
      cases b with
      | true => rfl
      | false =>
        cases x.type with
        | latchingDualCoil =>
          dsimp only
          cases x.pool.get (x.nodeBit row col) with
          | none => rfl
          | some bit =>
            change (if bit == decide (level > 0) then _ else _) =
              Option.map (extended tail) (if bit == decide (level > 0) then _ else _)
            split <;> rfl
        | nonLatching => cases x.pool.set (x.nodeBit row col) (decide (level > 0)) <;> rfl

/-- One turn of the sweep. -/
theorem clearNode_extend {s : XPoint × List DriverCall} (h : s.1.pool.Full) (now : UInt32) (r c : UInt8) :
    clearNode now r c (extended tail s) = (clearNode now r c s).map (extended tail) := by
  obtain ⟨x, calls⟩ := s
  have hget : (x.extend tail).pool.get (x.nodeBit r c) = x.pool.get (x.nodeBit r c) := h.get_extend _
  have hset : (x.extend tail).pool.set (x.nodeBit r c) false =
      (x.pool.set (x.nodeBit r c) false).map (BitPool.extend tail) :=
    h.set_extend _ _
  have hbit : (x.extend tail).nodeBit r c = x.nodeBit r c := rfl
  have htype : (x.extend tail).type = x.type := rfl
  have hpulses : (x.extend tail).pulses = x.pulses := rfl
  simp only [clearNode, extended, hbit, hget, hset, htype, hpulses]
  cases x.pool.get (x.nodeBit r c) with
  | none => rfl
  | some bit =>
    cases bit with
    | false => rfl
    | true =>
      cases x.pool.set (x.nodeBit r c) false with
      | none => rfl
      | some q =>
        dsimp only [bind, Option.bind, Option.map]
        cases x.type with
        | nonLatching => rfl
        | latchingDualCoil =>
          generalize x.pulses.reclaim r c = u
          obtain ⟨pulses, slot⟩ := u
          cases slot <;> rfl

theorem clearAll_extend (h : x.pool.Full) : (x.extend tail).clearAll millis = (x.clearAll millis).map (extended tail) := by
  have hkeep := fun now r c (s t : XPoint × List DriverCall) (hs : s.1.pool.Full) (ht : clearNode now r c s = some t) =>
    clearNode_pool (fun _ _ _ _ hp => hp.set) hs ht
  have hsweep := fun now => foldlM_map (φ := extended tail) (I := fun s => s.1.pool.Full)
    (f := fun s r => (below x.cols).foldlM (fun s c => clearNode now r c s) s)
    (g := fun s r => (below x.cols).foldlM (fun s c => clearNode now r c s) s) (l := below x.rows) (s := (x, []))
    (fun r _ s t hs ht => foldlM_keeps (I := fun s => s.1.pool.Full) (fun c _ => hkeep now r c) hs ht)
    (fun r _ s hs => foldlM_map (I := fun s => s.1.pool.Full) (fun c _ => hkeep now r c)
      (fun c _ s hs => clearNode_extend hs now r c) hs) h
  unfold clearAll
  rw [valid_extend]
  split
  · rfl
  · have hsweep := hsweep (if x.type = .latchingDualCoil then millis 0 else 0)
    let finish (s : XPoint × List DriverCall) : XPoint × Reply := (s.1, ⟨none, s.2 ++ x.drive [.commitPhysicalUpdates]⟩)
    refine (congrArg (fun u => Option.bind u fun s => some (finish s)) hsweep).trans ?_
    rw [Option.map_eq_bind]
    dsimp only [bind]
    generalize (List.foldlM _ (x, []) (below x.rows) : Option (XPoint × List DriverCall)) = u
    cases u <;> rfl

theorem lockRows_extend (h : x.pool.Full) (rowA rowB : UInt8) :
    (x.extend tail).lockRows rowA rowB = (x.lockRows rowA rowB).map (extended tail) := by
  have hset : (x.extend tail).pool.set ((x.extend tail).ilockBit rowA rowB) true =
      (x.pool.set (x.ilockBit rowA rowB) true).map (BitPool.extend tail) := h.set_extend _ _
  unfold lockRows
  rw [valid_extend, hset]
  change (if !x.pool.valid || decide (rowA ≥ x.rows) || decide (rowB ≥ x.rows) then _ else _) = _
  split
  · rfl
  · cases hq : x.pool.set (x.ilockBit rowA rowB) true with
    | none => rfl
    | some q =>
      have hset' : (q.extend tail).set ((x.extend tail).ilockBit rowB rowA) true =
          (q.set (x.ilockBit rowB rowA) true).map (BitPool.extend tail) := (h.set hq).set_extend _ _
      dsimp only [bind, Option.bind, Option.map]
      rw [hset']
      cases q.set (x.ilockBit rowB rowA) true <;> rfl

theorem exclusiveInput_extend (h : x.pool.Full) (col : UInt8) :
    (x.extend tail).exclusiveInput col = (x.exclusiveInput col).map (extended tail) := by
  have hset : (x.extend tail).pool.set ((x.extend tail).exclBit col) true =
      (x.pool.set (x.exclBit col) true).map (BitPool.extend tail) := h.set_extend _ _
  unfold exclusiveInput
  rw [valid_extend, hset]
  change (if !x.pool.valid || decide (col ≥ x.cols) then _ else _) = _
  split
  · rfl
  · cases x.pool.set (x.exclBit col) true <;> rfl

theorem update_extend : (x.extend tail).update millis = extended tail (x.update millis) := by
  have htype : (x.extend tail).type = x.type := rfl
  have hpulses : (x.extend tail).pulses = x.pulses := rfl
  have hpdur : (x.extend tail).pdur = x.pdur := rfl
  unfold update
  rw [htype, hpulses, hpdur]
  split
  · rfl
  · generalize x.pulses.expire (millis 0) x.pdur = u
    obtain ⟨pulses, released⟩ := u
    rfl

/-- Whatever stands after the words of the pool, an operation does the same and leaves it as it is. -/
theorem step_extend (h : x.pool.Full) (i : Op × Clock) : (x.extend tail).step i = (x.step i).map (extended tail) := by
  obtain ⟨op, millis⟩ := i
  unfold step
  cases op with
  | setDriver drv => rfl
  | begin => rfl
  | connect row col => exact connect_extend h
  | disconnect row col => exact disconnect_extend h
  | setLevel row col level => exact setLevel_extend h level
  | clearAll => exact clearAll_extend h
  | lockRows rowA rowB => exact lockRows_extend h rowA rowB
  | exclusiveInput col => exact exclusiveInput_extend h col
  | update => exact congrArg some update_extend

/-! ### Construction and runs -/

variable {rows cols : UInt8} {type : RelayType} {pdur : UInt16} {buffer : Array UInt32}

/-- A cleared buffer is a cleared heap pool, and what the buffer holds after it. -/
theorem clear_wrap {nBits : UInt32} (room : (BitPool.wordsFor nBits).toNat ≤ buffer.size) :
    (BitPool.wrap (some buffer) nBits).clear = some ⟨some (Array.replicate (BitPool.wordsFor nBits).toNat 0 ++
      buffer.extract (BitPool.wordsFor nBits).toNat), BitPool.wordsFor nBits, nBits⟩ := by
  have hwords : buffer.mapIdx (fun i w => if i < (BitPool.wordsFor nBits).toNat then 0 else w) =
      Array.replicate (BitPool.wordsFor nBits).toNat 0 ++ buffer.extract (BitPool.wordsFor nBits).toNat := by
    refine Array.ext (by simp [Nat.add_sub_of_le room]) fun i h₁ h₂ => ?_
    rw [Array.getElem_mapIdx, Array.getElem_append]
    by_cases hi : i < (BitPool.wordsFor nBits).toNat
    · simp [hi]
    · simp [hi, Nat.add_sub_of_le (Nat.le_of_not_lt hi)]
  rw [← hwords]
  exact if_pos room

theorem clear_heap {nBits : UInt32} (hpos : BitPool.wordsFor nBits > 0) : (BitPool.heap nBits).clear =
    some ⟨some (Array.replicate (BitPool.wordsFor nBits).toNat 0), BitPool.wordsFor nBits, nBits⟩ := by
  have hwords : (Array.replicate (BitPool.wordsFor nBits).toNat (0 : UInt32)).mapIdx
      (fun i w => if i < (BitPool.wordsFor nBits).toNat then 0 else w) = Array.replicate (BitPool.wordsFor nBits).toNat 0 :=
    Array.ext (by simp) fun i h₁ h₂ => by simp
  simp only [BitPool.clear, BitPool.heap, if_pos hpos, Array.size_replicate, le_refl, ↓reduceIte, hwords]

theorem poolWords_pos (hsize : rows ≠ 0 ∨ cols ≠ 0) : poolWords rows cols > 0 := by
  obtain hvalid | ⟨hr, hc⟩ : (BitPool.heap (poolBits rows cols)).valid = true ∨ rows = 0 ∧ cols = 0 := heap_valid
  · by_contra hzero
    rw [BitPool.valid, BitPool.heap, if_neg (show ¬BitPool.wordsFor (poolBits rows cols) > 0 from hzero)] at hvalid
    cases hvalid
  · exact absurd hsize (by simp [hr, hc])

/-- The two constructors make the same matrix, but for what follows the pool. -/
theorem onPool_extend (hsize : rows ≠ 0 ∨ cols ≠ 0) (room : (poolWords rows cols).toNat ≤ buffer.size)
    (hx : heap rows cols type pdur = some x) : x.pool.Full ∧
      onPool rows cols (some buffer) type pdur = some (x.extend (buffer.extract (poolWords rows cols).toNat)) := by
  rw [heap, init, clear_heap (poolWords_pos hsize)] at hx
  obtain rfl := Option.some.inj hx
  refine ⟨⟨_, rfl, Array.size_replicate⟩, ?_⟩
  rw [onPool, init, clear_wrap room]
  rfl

/-- `y` is the matrix `x` with more words behind its pool. -/
structure Extends (tail : Array UInt32) (x y : XPoint) : Prop where
  wf : x.WellFormed
  full : x.pool.Full
  same : y = x.extend tail

theorem Extends.step {y : XPoint} (h : Extends tail x y) (i : Op × Clock) :
    ∃ x' rep y', x.step i = some (x', rep) ∧ y.step i = some (y', rep) ∧ Extends tail x' y' := by
  obtain ⟨x', rep, hx, hwf, -⟩ := step_matches h.wf i
  refine ⟨x', rep, x'.extend tail, hx, ?_, hwf, step_pool (fun _ _ _ _ hp => hp.set) h.full hx, rfl⟩
  rw [h.same, step_extend h.full, hx]
  rfl

/-- A matrix on the caller's buffer makes in every run the replies and driver calls of the heap matrix. The first
    `poolWords` words of the buffer are then bit for bit the words of the heap pool, and all others are as the caller
    left them. -/
theorem run_on_buffer (hsize : rows ≠ 0 ∨ cols ≠ 0) (room : (poolWords rows cols).toNat ≤ buffer.size) (type : RelayType)
    (pdur : UInt16) : ∃ x y, heap rows cols type pdur = some x ∧ onPool rows cols (some buffer) type pdur = some y ∧
      ∀ ops : List (Op × Clock), ∃ x' y' log words, x.run ops = some (x', log) ∧ y.run ops = some (y', log) ∧
        x'.pool.words = some words ∧ words.size = (poolWords rows cols).toNat ∧
        y'.pool.words = some (words ++ buffer.extract (poolWords rows cols).toNat) := by
  obtain ⟨x, hx⟩ := (exists_built rows cols type pdur).1
  obtain ⟨hfull, hy⟩ := onPool_extend hsize room hx
  refine ⟨x, _, hx, hy, fun ops => ?_⟩
  let tail := buffer.extract (poolWords rows cols).toNat
  have hstart : Extends tail x (x.extend tail) := ⟨(Built.heap hx).spec.1, hfull, rfl⟩
  obtain ⟨x', log, y', log', hrunx, hruny, hend, hlog⟩ := Machine.run_lockstep (E := Eq) (K := Eq)
    (fun s t i j hst hij => by
      obtain ⟨s', rep, t', hs, ht, hst⟩ := Extends.step hst i
      exact ⟨s', rep, t', rep, hs, hij ▸ ht, hst, by rw [hij]⟩)
    hstart (List.forall₂_same.mpr fun i (_ : i ∈ ops) => rfl)
  obtain rfl : log = log' := by rwa [List.forall₂_eq_eq_eq] at hlog
  obtain ⟨hrows, hcols⟩ := run_size (Built.heap hx) hrunx
  obtain ⟨words, hwords, hlength⟩ := hend.full
  refine ⟨x', y', log, words, hrunx, hruny, hwords, ?_, ?_⟩
  · rw [hlength, hend.wf.words, hrows, hcols]
  · rw [hend.same]
    exact BitPool.words_extend hwords

theorem run_on_buffer_two_by_two : ∃ x y, heap 2 2 .latchingDualCoil 5 = some x ∧
    onPool 2 2 (some #[7, 8, 9]) .latchingDualCoil 5 = some y ∧
      ∀ ops : List (Op × Clock), ∃ x' y' log words, x.run ops = some (x', log) ∧ y.run ops = some (y', log) ∧
        x'.pool.words = some words ∧ words.size = (poolWords 2 2).toNat ∧
        y'.pool.words = some (words ++ (#[7, 8, 9] : Array UInt32).extract (poolWords 2 2).toNat) :=
  run_on_buffer (by decide) (by decide) _ _

end XPoint

end Crosspoint
