import Mathlib.Data.List.Basic

/-! Cascaded shift registers, the one nearest to the input first, each with its oldest element first. An element
    that enters the first register pushes the oldest out of it into the next one, so the chain is one long
    queue. A register whose stages are read in parallel is a row of stages, the newest element first. -/

namespace ShiftRegisters
variable {α : Type} {x : α} {xs : List α} {regs chain : List (List α)}

/-- One element enters the first register. -/
def shift : List (List α) → α → List (List α)
  | [], _ => []
  | [] :: regs, x => [] :: shift regs x
  | (y :: r) :: regs, x => (r ++ [x]) :: shift regs y

def shiftAll (regs : List (List α)) (xs : List α) : List (List α) := xs.foldl shift regs

/-- The whole chain as one queue, the oldest element first. -/
def queue (regs : List (List α)) : List α := regs.reverse.flatten

theorem queue_cons {r : List α} : queue (r :: regs) = queue regs ++ r := by
  simp [queue]

theorem queue_shift : queue (shift regs x) = (queue regs ++ [x]).drop 1 := by
  induction regs generalizing x with
  | nil => rfl
  | cons r regs ih =>
    cases r with
    | nil => rw [shift, queue_cons, queue_cons, ih, List.append_nil, List.append_nil]
    | cons y r =>
      have hmid : queue regs ++ y :: r ++ [x] = queue regs ++ [y] ++ (r ++ [x]) := by simp
      have hle : 1 ≤ (queue regs ++ [y]).length := by simp
      rw [shift, queue_cons, queue_cons, ih, hmid, List.drop_append_of_le_length hle]

theorem widths_shift : (shift regs x).map List.length = regs.map List.length := by
  induction regs generalizing x with
  | nil => rfl
  | cons r regs ih =>
    cases r with
    | nil => rw [shift, List.map_cons, ih, List.map_cons]
    | cons y r => rw [shift, List.map_cons, ih, List.map_cons, List.length_append, List.length_singleton, List.length_cons]

theorem queue_shiftAll : queue (shiftAll regs xs) = (queue regs ++ xs).drop xs.length := by
  induction xs generalizing regs with
  | nil => simp [shiftAll]
  | cons x xs ih =>
    have hle : 1 ≤ (queue regs ++ [x]).length := by simp
    have hsplit : (queue regs ++ [x]).drop 1 ++ xs = (queue regs ++ x :: xs).drop 1 := by
      rw [← List.drop_append_of_le_length hle, List.append_assoc, List.singleton_append]
    rw [shiftAll, List.foldl_cons]
    refine ih.trans ?_
    rw [queue_shift, hsplit, List.drop_drop, List.length_cons, Nat.add_comm]

theorem widths_shiftAll : (shiftAll regs xs).map List.length = regs.map List.length := by
  induction xs generalizing regs with
  | nil => rfl
  | cons x xs ih => exact ih.trans widths_shift

/-- What is shifted in for the last register first ends up in the registers it is meant for, whatever the
    registers held before. -/
theorem shiftAll_queue (h : chain.map List.length = regs.map List.length) : shiftAll regs (queue chain) = chain := by
  have hlen : (queue chain).length = (queue regs).length := by
    rw [queue, queue, List.length_flatten, List.length_flatten, List.map_reverse, List.map_reverse, h]
  have hqueue : queue (shiftAll regs (queue chain)) = queue chain := by
    rw [queue_shiftAll, List.drop_left' hlen.symm]
  refine List.reverse_injective (List.eq_iff_flatten_eq.mpr ⟨hqueue, ?_⟩)
  rw [List.map_reverse, List.map_reverse, widths_shiftAll, h]

/-! ### Stages -/

section Stages
variable {n : Nat} {v w : Vector α n}

/-- One element enters a row of stages that hold one element each, the newest first. -/
def push (v : Vector α n) (x : α) : Vector α n :=
  Vector.ofFn fun i : Fin n => if i.val = 0 then x else v.get ⟨i.val - 1, Nat.lt_of_le_of_lt (Nat.sub_le ..) i.isLt⟩

def pushAll (v : Vector α n) (xs : List α) : Vector α n := xs.foldl push v

theorem toList_push : (push v x).toList = (x :: v.toList).take n := by
  refine List.ext_getElem (by simp) fun i h₁ h₂ => ?_
  have hi : i < n := by simpa using h₁
  simp only [List.getElem_take, Vector.getElem_toList, push, Vector.getElem_ofFn]
  cases i with
  | zero => rfl
  | succ i => rfl

theorem toList_pushAll : (pushAll v xs).toList = (xs.reverse ++ v.toList).take n := by
  induction xs generalizing v with
  | nil => exact (List.take_of_length_le (by simp)).symm
  | cons x xs ih =>
    have hcut : ∀ l : List α, l.take n = (l.take (xs.reverse.length + n)).take n := fun l => by
      rw [List.take_take, Nat.min_eq_left (by omega)]
    rw [pushAll, List.foldl_cons]
    refine ih.trans ?_
    rw [toList_push, List.reverse_cons, List.append_assoc, List.singleton_append, hcut (_ ++ x :: _),
      List.take_length_add_append]

/-- What is pushed in for the last stage first ends up in the stages it is meant for. -/
theorem pushAll_reverse : pushAll v w.toList.reverse = w := by
  refine Vector.toList_inj.mp ?_
  rw [toList_pushAll, List.reverse_reverse, List.take_append_of_le_length (by simp), List.take_of_length_le (by simp)]

end Stages

end ShiftRegisters
