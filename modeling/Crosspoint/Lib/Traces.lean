import Mathlib.Data.List.Induction

/-! Traces: lists of what happened, the latest last. `lastWhere` finds the latest entry of a kind,
    `Preceded Q` says that every entry stands in the relation `Q` to the trace before it, `Since Q P` that one
    does and all later ones meet `P`, and `Throughout` that a replay of the trace meets a property at every
    moment; all are followed one entry at a time. -/

namespace Traces
variable {α : Type} {p : α → Bool} {Q : List α → α → Prop} {l : List α} {x : α}

/-- What a trace gives entry by entry, it gives for the latest entry last. -/
theorem flatMap_concat {β : Type} {f : α → List β} : (l ++ [x]).flatMap f = l.flatMap f ++ f x := by
  rw [List.flatMap_append, List.flatMap_singleton]

/-- The latest entry that meets `p`. -/
def lastWhere (p : α → Bool) (l : List α) : Option α := l.reverse.find? p

theorem lastWhere_concat : lastWhere p (l ++ [x]) = if p x then some x else lastWhere p l := by
  rw [lastWhere, List.reverse_concat, List.find?_cons]
  cases p x <;> rfl

theorem lastWhere_append {m : List α} : lastWhere p (l ++ m) = (lastWhere p m).or (lastWhere p l) := by
  rw [lastWhere, List.reverse_append, List.find?_append]
  rfl

theorem lastWhere_eq_none : lastWhere p l = none ↔ ∀ x ∈ l, p x = false := by
  simp [lastWhere]

theorem lastWhere_eq_some (h : lastWhere p l = some x) : x ∈ l ∧ p x = true :=
  ⟨List.mem_reverse.mp (List.mem_of_find?_eq_some h), List.find?_some h⟩

theorem exists_lastWhere (hx : x ∈ l) (hp : p x = true) : ∃ y, lastWhere p l = some y ∧ y ∈ l ∧ p y = true := by
  cases h : lastWhere p l with
  | none => cases hp.symm.trans (lastWhere_eq_none.mp h x hx)
  | some y => exact ⟨y, rfl, lastWhere_eq_some h⟩

/-- Every entry is in relation `Q` to the entries before it. -/
def Preceded (Q : List α → α → Prop) (l : List α) : Prop := ∀ pre x post, l = pre ++ x :: post → Q pre x

@[simp] theorem preceded_nil : Preceded Q [] := fun pre x post h => by
  simp at h

theorem preceded_concat : Preceded Q (l ++ [x]) ↔ Preceded Q l ∧ Q l x := by
  constructor
  · intro h
    exact ⟨fun pre y post hl => h pre y (post ++ [x]) (by simp [hl]), h l x [] rfl⟩
  · rintro ⟨hl, hx⟩ pre y post h
    rcases List.eq_nil_or_concat post with rfl | ⟨post', z, rfl⟩
    · obtain ⟨rfl, hy⟩ := List.append_inj' h rfl
      obtain rfl := List.singleton_inj.mp hy
      exact hx
    · have h : l ++ [x] = (pre ++ y :: post') ++ [z] := by simpa using h
      exact hl pre y post' (List.append_inj' h rfl).1

theorem preceded_append {m : List α} :
    Preceded Q (l ++ m) ↔ Preceded Q l ∧ Preceded (fun pre x => Q (l ++ pre) x) m := by
  induction m using List.reverseRecOn with
  | nil => simp
  | append_singleton m x ih => rw [← List.append_assoc, preceded_concat, preceded_concat, ih, and_assoc]

theorem preceded_map {β : Type} {f : β → α} {m : List β} :
    Preceded Q (m.map f) ↔ Preceded (fun pre y => Q (pre.map f) (f y)) m := by
  constructor
  · rintro h pre y post rfl
    exact h (pre.map f) (f y) (post.map f) (by simp)
  · intro h pre x post hm
    obtain ⟨pre', rest, rfl, rfl, hrest⟩ := List.map_eq_append_iff.mp hm
    obtain ⟨y, post', rfl, rfl, -⟩ := List.map_eq_cons_iff.mp hrest
    exact h pre' y post' rfl

theorem Preceded.imp {Q' : List α → α → Prop} (hQ : ∀ pre x, x ∈ l → Q pre x → Q' pre x) (h : Preceded Q l) :
    Preceded Q' l := fun pre x post hl => hQ pre x (by simp [hl]) (h pre x post hl)

/-! ### Every state on the way -/

section Throughout
variable {σ : Type} {f : σ → α → σ} {Q R : σ → Prop} {s : σ} {m : List α}

/-- `Q` holds of every state that the fold over the trace passes through, the first and the last included. -/
def Throughout (f : σ → α → σ) (Q : σ → Prop) (s : σ) (l : List α) : Prop := ∀ pre post, l = pre ++ post → Q (pre.foldl f s)

theorem throughout_nil : Throughout f Q s [] ↔ Q s := by
  refine ⟨fun h => h [] [] rfl, fun h pre post hl => ?_⟩
  rw [(List.append_eq_nil_iff.mp hl.symm).1]
  exact h

theorem throughout_append : Throughout f Q s (l ++ m) ↔ Throughout f Q s l ∧ Throughout f Q (l.foldl f s) m := by
  constructor
  · refine fun h => ⟨fun pre post hl => h pre (post ++ m) (by rw [hl, List.append_assoc]), fun pre post hm => ?_⟩
    rw [← List.foldl_append]
    exact h (l ++ pre) post (by rw [hm, List.append_assoc])
  · rintro ⟨hl, hm⟩ pre post hsplit
    rcases List.append_eq_append_iff.mp hsplit with ⟨mid, hpre, hmid⟩ | ⟨mid, hpre, hmid⟩
    · rw [hpre, List.foldl_append]
      exact hm mid post hmid
    · exact hl pre mid hpre

theorem Throughout.first (h : Throughout f Q s l) : Q s := h [] l rfl

theorem Throughout.last (h : Throughout f Q s l) : Q (l.foldl f s) := h l [] (List.append_nil l).symm

theorem throughout_cons : Throughout f Q s (x :: l) ↔ Q s ∧ Throughout f Q (f s x) l := by
  rw [← List.singleton_append, throughout_append]
  exact ⟨fun h => ⟨h.1.first, h.2⟩, fun h => ⟨fun pre post hl => by
    rcases List.append_eq_singleton_iff.mp hl.symm with ⟨rfl, -⟩ | ⟨rfl, -⟩
    · exact h.1
    · exact h.2.first, h.2⟩⟩

theorem Throughout.imp (hQR : ∀ s, Q s → R s) (h : Throughout f Q s l) : Throughout f R s l :=
  fun pre post hl => hQR _ (h pre post hl)

/-- What every entry keeps holds all the way. -/
theorem throughout_of_kept (hstep : ∀ x ∈ l, ∀ s, Q s → Q (f s x)) (hs : Q s) : Throughout f Q s l := fun pre _ hl =>
  List.foldlRecOn pre f hs fun s hs x hx => hstep x (hl ▸ List.mem_append_left _ hx) s hs

end Throughout

/-! ### Since an entry -/

section Since
variable {P : α → Prop} {R : List α → Prop}

/-- An entry stood in the relation `Q` to the trace before it, and all entries since then meet `P`. -/
def Since (Q : List α → α → Prop) (P : α → Prop) (l : List α) : Prop :=
  ∃ pre x post, l = pre ++ x :: post ∧ Q pre x ∧ ∀ y ∈ post, P y

theorem not_since_nil : ¬Since Q P [] := by
  rintro ⟨pre, x, post, hl, -⟩
  simp at hl

theorem since_concat : Since Q P (l ++ [x]) ↔ Q l x ∨ Since Q P l ∧ P x := by
  constructor
  · rintro ⟨pre, y, post, hl, hQ, hP⟩
    rcases List.eq_nil_or_concat post with rfl | ⟨post', z, rfl⟩
    · obtain ⟨rfl, hy⟩ := List.append_inj' hl rfl
      obtain rfl := List.singleton_inj.mp hy
      exact .inl hQ
    · rw [List.concat_eq_append] at hl hP
      have hl : l ++ [x] = (pre ++ y :: post') ++ [z] := by simpa using hl
      obtain ⟨rfl, hz⟩ := List.append_inj' hl rfl
      obtain rfl := List.singleton_inj.mp hz
      have hP := List.forall_mem_append.mp hP
      exact .inr ⟨⟨pre, y, post', rfl, hQ, hP.1⟩, hP.2 x (List.mem_singleton_self x)⟩
  · rintro (hQ | ⟨⟨pre, y, post, rfl, hQ, hP⟩, hx⟩)
    · exact ⟨l, x, [], rfl, hQ, fun _ hy => absurd hy List.not_mem_nil⟩
    · refine ⟨pre, y, post ++ [x], by rw [List.append_assoc, List.cons_append], hQ, List.forall_mem_append.mpr ⟨hP, ?_⟩⟩
      exact List.forall_mem_singleton.mpr hx

theorem Since.imp {P' : α → Prop} (hP : ∀ y, P y → P' y) (h : Since Q P l) : Since Q P' l := by
  obtain ⟨pre, x, post, hl, hQ, hpost⟩ := h
  exact ⟨pre, x, post, hl, hQ, fun y hy => hP y (hpost y hy)⟩

/-- What the entry brings about, and the entries since then keep. -/
theorem Since.rule (hfirst : ∀ l x, Q l x → R (l ++ [x])) (hkeep : ∀ l x, R l → P x → R (l ++ [x])) (h : Since Q P l) :
    R l := by
  induction l using List.reverseRecOn with
  | nil => exact absurd h not_since_nil
  | append_singleton l x ih =>
    rcases since_concat.mp h with hQ | ⟨hl, hx⟩
    · exact hfirst l x hQ
    · exact hkeep l x (ih hl) hx

end Since

end Traces
