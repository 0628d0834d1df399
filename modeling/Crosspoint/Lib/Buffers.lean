import Mathlib.Data.List.Basic

/-! Buffers of a fixed size that are read and written in bounds or not at all (`none`). A loop that advances an offset
    writes a list at consecutive places, which is `fill`; a buffer of records of one width is read back
    record by record with `flatten_slice`. -/

namespace Buffers
variable {α β : Type} {n w m : Nat} {p q : Vector α n} {k : Nat} {x : α} {xs ys : List α}

def load (p : Vector α n) (i : Nat) : Option α := if h : i < n then some (p.get ⟨i, h⟩) else none

def store (p : Vector α n) (i : Nat) (x : α) : Option (Vector α n) := if h : i < n then some (p.set i x h) else none

theorem load_eq (h : k < n) : load p k = some (p.get ⟨k, h⟩) := dif_pos h

/-- A store in bounds changes the entry at its place and no other. -/
theorem store_eq_some (h : k < n) : ∃ q, store p k x = some q ∧ ∀ i, load q i = if k = i then some x else load p i := by
  refine ⟨p.set k x h, dif_pos h, fun i => ?_⟩
  by_cases hi : i < n
  · have hget : (p.set k x h).get ⟨i, hi⟩ = if k = i then x else p.get ⟨i, hi⟩ := Vector.getElem_set ..
    rw [load_eq hi, load_eq hi, hget]
    split <;> rfl
  · rw [load, load, dif_neg hi, dif_neg hi, if_neg (by omega)]

/-- Write `xs` at the places from `k` on. -/
def fill (p : Vector α n) (k : Nat) : List α → Option (Vector α n)
  | [] => some p
  | x :: xs => (store p k x).bind fun p => fill p (k + 1) xs

theorem fill_cons : fill p k (x :: xs) = (store p k x).bind fun p => fill p (k + 1) xs := rfl

theorem fill_append : fill p k (xs ++ ys) = (fill p k xs).bind fun p => fill p (k + xs.length) ys := by
  induction xs generalizing p k with
  | nil => rfl
  | cons x xs ih =>
    rw [List.cons_append, fill_cons, fill_cons, Option.bind_assoc]
    refine congrArg _ (funext fun p => ?_)
    rw [ih, List.length_cons, Nat.add_assoc, Nat.add_comm 1]

/-- What fits is written, and the rest of the buffer stays. -/
theorem fill_eq_some (h : k + xs.length ≤ n) :
    ∃ q, fill p k xs = some q ∧ q.toList = p.toList.take k ++ xs ++ p.toList.drop (k + xs.length) := by
  induction xs generalizing p k with
  | nil => exact ⟨p, rfl, by simp⟩
  | cons x xs ih =>
    rw [List.length_cons] at h
    have hoff : k < n := by omega
    obtain ⟨q, hq, hlist⟩ := ih (p := p.set k x hoff) (k := k + 1) (by omega)
    refine ⟨q, by rw [fill_cons, store, dif_pos hoff]; exact hq, ?_⟩
    have htake : (p.toList.set k x).take (k + 1) = p.toList.take k ++ [x] := by
      rw [List.take_succ_eq_append_getElem (by simpa using hoff), List.getElem_set_self,
        List.take_set_of_le (Nat.le_refl k)]
    have hdrop : (p.toList.set k x).drop (k + 1 + xs.length) = p.toList.drop (k + (xs.length + 1)) := by
      rw [List.drop_set_of_lt (by omega), Nat.add_assoc, Nat.add_comm 1]
    rw [hlist, Vector.toList_set, htake, hdrop, List.length_cons, List.append_assoc, List.append_assoc, List.append_assoc]
    rfl

theorem fill_all (h : xs.length = n) : ∃ q, fill p 0 xs = some q ∧ q.toList = xs := by
  obtain ⟨q, hq, hlist⟩ : ∃ q, fill p 0 xs = some q ∧ q.toList = p.toList.take 0 ++ xs ++ p.toList.drop (0 + xs.length) :=
    fill_eq_some (by omega)
  refine ⟨q, hq, hlist.trans ?_⟩
  rw [List.drop_of_length_le (by simp [h])]
  simp

/-- A counted loop that writes a record of width `w` at place `k + i * w` in turn `i`. -/
theorem foldlM_range_fill {f : Nat → List α} (hw : ∀ i < m, (f i).length = w) :
    (List.range m).foldlM (fun p i => fill p (k + i * w) (f i)) p = fill p k ((List.range m).flatMap f) := by
  induction m with
  | zero => rfl
  | succ m ih =>
    have hlen : ((List.range m).flatMap f).length = m * w := by
      rw [List.length_flatMap, List.map_congr_left fun i hi => hw i (Nat.lt_succ_of_lt (List.mem_range.mp hi))]
      simp
    rw [List.range_succ, List.foldlM_append, ih fun i hi => hw i (Nat.lt_succ_of_lt hi), List.flatMap_append,
      fill_append, hlen]
    simp

/-- A table of `m` records of width `w` as one table. -/
theorem range_records {f : Nat → α} :
    ((List.range m).flatMap fun i => (List.range w).map fun j => f (w * i + j)) = (List.range (w * m)).map f := by
  induction m with
  | zero => rfl
  | succ m ih =>
    rw [List.range_succ, List.flatMap_append, ih, List.flatMap_singleton, Nat.mul_succ, List.range_add, List.map_append,
      List.map_map]
    rfl

/-- Record `i` of a buffer of records of width `w`. -/
theorem flatten_slice {L : List (List α)} (hw : ∀ l ∈ L, l.length = w) {i : Nat} (hi : i < L.length) :
    (L.flatten.drop (i * w)).take w = L[i] := by
  induction L generalizing i with
  | nil => exact absurd hi (Nat.not_lt_zero i)
  | cons l L ih =>
    have hl := hw l List.mem_cons_self
    rw [List.flatten_cons]
    cases i with
    | zero => rw [Nat.zero_mul, List.drop_zero, List.take_left' hl, List.getElem_cons_zero]
    | succ i =>
      rw [Nat.succ_mul, Nat.add_comm, ← List.drop_drop, List.drop_left' hl, List.getElem_cons_succ]
      exact ih (fun l hmem => hw l (List.mem_cons_of_mem _ hmem)) (Nat.lt_of_succ_lt_succ hi)

theorem slice_slice {l : List α} {a b v : Nat} (h : b + v ≤ w) :
    (((l.drop a).take w).drop b).take v = (l.drop (a + b)).take v := by
  rw [List.drop_take, List.drop_drop, List.take_take, Nat.min_eq_left (by omega)]

end Buffers
