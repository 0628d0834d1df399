import Mathlib.Data.List.Basic
import Mathlib.Data.List.Nodup

/-! Counted loops over machine counters, the tables they visit, loops whose body may get stuck (`none`), and
branches that two programs take alike.

A loop `for (uint8_t i = 0; i < n; ++i)` visits `below n` in order. A body that reads memory returns
an `Option`; when every read succeeds, the loop is the pure loop over the values read. A table of fixed size
is a `Vector`, indexed by `Fin`. -/

namespace Vector
variable {α : Type} {n : Nat} {v : Vector α n} {i j : Fin n} {x y : α}

/-- The table with entry `i` replaced. -/
def put (v : Vector α n) (i : Fin n) (x : α) : Vector α n := v.set i x i.isLt

theorem get_put : (v.put i x).get j = if i = j then x else v.get j := by
  change (v.set i x i.isLt)[j.val] = if i = j then x else v[j.val]
  rw [Vector.getElem_set]
  simp only [Fin.ext_iff]

theorem put_put : (v.put i x).put i y = v.put i y := Vector.set_set ..

theorem put_get : v.put i (v.get i) = v := Vector.set_getElem_self i.isLt

end Vector

namespace Loops

/-! ### Counters -/

/-- The values of a `uint8_t` counter that runs from 0 up to, but not including, `n`. -/
def below (n : UInt8) : List UInt8 := (List.range n.toNat).map UInt8.ofNat

@[simp] theorem mem_below {n i : UInt8} : i ∈ below n ↔ i < n := by
  simp only [below, List.mem_map, List.mem_range, UInt8.lt_iff_toNat_lt]
  constructor
  · rintro ⟨k, hk, rfl⟩
    have := n.toNat_lt
    rw [UInt8.toNat_ofNat', Nat.mod_eq_of_lt (by omega)]
    exact hk
  · intro hi
    exact ⟨i.toNat, hi, UInt8.ofNat_toNat⟩

theorem below_nodup (n : UInt8) : (below n).Nodup := by
  refine List.Nodup.map_on (fun i hi j hj h => ?_) List.nodup_range
  have hn := n.toNat_lt
  have hi := List.mem_range.mp hi
  have hj := List.mem_range.mp hj
  have h := congrArg UInt8.toNat h
  rw [UInt8.toNat_ofNat', UInt8.toNat_ofNat'] at h
  omega

/-- The values of an `int8_t` counter that runs from `start` down to, and including, 0. -/
def downFrom (start : Int8) : List Int8 := (List.range (start.toInt + 1).toNat).reverse.map Int8.ofNat

theorem downFrom_neg {i : Int8} (h : i.toInt < 0) : downFrom i = [] := by
  rw [downFrom, Int.toNat_of_nonpos (by omega)]
  rfl

/-- `(int8_t)n - 1` of an unsigned count: from 129 on it is negative. -/
theorem toInt_count_pred (n : UInt8) : (n.toInt8 - 1).toInt =
    if n.toNat ≤ 128 then (n.toNat : Int) - 1 else n.toNat - 257 := by
  have hn := n.toNat_lt
  have h1 : (1 : Int8).toInt = 1 := rfl
  have hconv : n.toInt8.toInt = if n.toNat < 128 then (n.toNat : Int) else n.toNat - 256 := by
    change n.toBitVec.toInt = _
    rw [BitVec.toInt_eq_toNat_cond]
    change (if 2 * n.toNat < 2 ^ 8 then (n.toNat : Int) else n.toNat - 2 ^ 8) = _
    split <;> split <;> omega
  rw [Int8.toInt_sub, hconv, Int.bmod_def, h1]
  split <;> split <;> split <;> omega

/-! ### Loops that visit -/

/-- What the turn for `x` brings about and every turn keeps holds after a loop that visits `x`. -/
theorem foldl_visits {α σ : Type} {f : σ → α → σ} {Q : σ → Prop} {x : α} {l : List α} {s : σ} (hx : ∀ s, Q (f s x))
    (hk : ∀ s y, Q s → Q (f s y)) (h : x ∈ l) : Q (l.foldl f s) := by
  induction l generalizing s with
  | nil => cases h
  | cons y l ih =>
    rw [List.foldl_cons]
    rcases List.mem_cons.mp h with rfl | h
    · exact List.foldlRecOn l f (hx s) fun s hs y _ => hk s y hs
    · exact ih h

/-! ### Loops that may get stuck -/

section Fallible
variable {α σ τ : Type}

/-- A search whose tests all succeed is the pure search. -/
theorem anyM_eq_some {f : α → Option Bool} {g : α → Bool} :
    ∀ {l : List α}, (∀ x ∈ l, f x = some (g x)) → l.anyM f = some (l.any g)
  | [], _ => rfl
  | x :: l, h => by
    have ih := anyM_eq_some fun y hy => h y (List.mem_cons_of_mem x hy)
    cases hx : g x <;> simp [List.anyM, h x List.mem_cons_self, hx, ih]

/-- A loop that reads at each turn, where every read succeeds. -/
theorem mapM_eq_some {f : α → Option τ} {g : α → τ} :
    ∀ {l : List α}, (∀ x ∈ l, f x = some (g x)) → l.mapM f = some (l.map g)
  | [], _ => rfl
  | x :: l, h => by
    rw [List.mapM_cons, h x List.mem_cons_self, mapM_eq_some fun y hy => h y (List.mem_cons_of_mem x hy)]
    rfl

theorem foldlM_congr {f g : σ → α → Option σ} :
    ∀ {l : List α} {s : σ}, (∀ x ∈ l, ∀ s, f s x = g s x) → l.foldlM f s = l.foldlM g s
  | [], _, _ => rfl
  | x :: l, s, h => by
    rw [List.foldlM_cons, List.foldlM_cons, h x List.mem_cons_self]
    exact congrArg _ (funext fun s => foldlM_congr fun y hy => h y (List.mem_cons_of_mem x hy))

/-- A fold whose every step succeeds and keeps the relation `R` to a pure fold succeeds, and its result
    is related to the result of the pure fold. -/
theorem foldlM_sim {R : σ → τ → Prop} {f : σ → α → Option σ} {g : τ → α → τ} :
    ∀ {l : List α} {s : σ} {t : τ},
      (∀ x ∈ l, ∀ s t, R s t → ∃ s', f s x = some s' ∧ R s' (g t x)) → R s t →
        ∃ s', l.foldlM f s = some s' ∧ R s' (l.foldl g t)
  | [], s, _, _, hR => ⟨s, rfl, hR⟩
  | x :: l, s, t, h, hR => by
    obtain ⟨s₁, hs₁, hR₁⟩ := h x List.mem_cons_self s t hR
    obtain ⟨s₂, hs₂, hR₂⟩ := foldlM_sim (fun y hy => h y (List.mem_cons_of_mem x hy)) hR₁
    exact ⟨s₂, by rw [List.foldlM_cons, hs₁]; exact hs₂, hR₂⟩

/-- A loop whose every turn leaves `s` as it is. -/
theorem foldlM_fixed {f : σ → α → Option σ} {s : σ} : ∀ {l : List α}, (∀ x ∈ l, f s x = some s) → l.foldlM f s = some s
  | [], _ => rfl
  | x :: l, h => by
    rw [List.foldlM_cons, h x List.mem_cons_self]
    exact foldlM_fixed fun y hy => h y (List.mem_cons_of_mem x hy)

/-- What every turn keeps, the loop keeps. -/
theorem foldlM_keeps {I : σ → Prop} {f : σ → α → Option σ} {s t : σ} {l : List α}
    (hf : ∀ x ∈ l, ∀ s t, I s → f s x = some t → I t) (hs : I s) (h : l.foldlM f s = some t) : I t := by
  induction l generalizing s with
  | nil =>
    obtain rfl := Option.some.inj h
    exact hs
  | cons x l ih =>
    rw [List.foldlM_cons] at h
    obtain ⟨u, hu, h⟩ := Option.bind_eq_some_iff.mp h
    exact ih (fun y hy => hf y (List.mem_cons_of_mem x hy)) (hf x List.mem_cons_self s u hs hu) h

/-- Two loops over states that `φ` takes into each other, as long as the first keeps `I`. -/
theorem foldlM_map {φ : σ → τ} {I : σ → Prop} {f : σ → α → Option σ} {g : τ → α → Option τ} {s : σ} {l : List α}
    (hf : ∀ x ∈ l, ∀ s t, I s → f s x = some t → I t) (hg : ∀ x ∈ l, ∀ s, I s → g (φ s) x = (f s x).map φ) (hs : I s) :
    l.foldlM g (φ s) = (l.foldlM f s).map φ := by
  induction l generalizing s with
  | nil => rfl
  | cons x l ih =>
    rw [List.foldlM_cons, List.foldlM_cons, hg x List.mem_cons_self s hs]
    cases hx : f s x with
    | none => rfl
    | some t =>
      exact ih (fun y hy => hf y (List.mem_cons_of_mem x hy)) (fun y hy => hg y (List.mem_cons_of_mem x hy))
        (hf x List.mem_cons_self s t hs hx)

end Fallible

/-! ### Branches -/

/-- Two programs that branch on the same condition are related if they are on either branch. -/
theorem ite_rel {α β : Type} {R : α → β → Prop} {p q : Bool} {s₁ s₂ : α} {t₁ t₂ : β} (hpq : p = q) (h₁ : R s₁ t₁)
    (h₂ : p = false → R s₂ t₂) : R (if p then s₁ else s₂) (if q then t₁ else t₂) := by
  subst hpq
  cases p with
  | true => exact h₁
  | false => exact h₂ rfl

end Loops
