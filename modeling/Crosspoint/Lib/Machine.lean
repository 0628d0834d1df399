import Mathlib.Data.List.Basic

/-! Machines that take one input at a time, answer it, and may get stuck (`none`).

`run` feeds a list of inputs and logs every input with its answer. The rules below lift facts about one
step to whole runs: an invariant that may mention the log (`run_rule`), and side conditions that a run meets
at each of its steps (`Along`), with the case that they are exactly what an invariant needs (`along_iff`). Inputs
that change nothing can be left out (`run_drop`).

`Unwinding` compares two runs as an observer sees them who does not see every input, `run_lockstep` two runs input by
input, and `Projects` sees a run as one of a part of the machine. `Steps` is the closure of a labelled step relation,
for steps that break into smaller events. -/

namespace Machine

section Run
variable {σ ι ω : Type} (step : σ → ι → Option (σ × ω))

/-- Feed the inputs in order; the log pairs each input with its answer. -/
def run (s : σ) : List ι → Option (σ × List (ι × ω))
  | [] => some (s, [])
  | i :: is => (step s i).bind fun r => (run r.1 is).map fun t => (t.1, (i, r.2) :: t.2)

/-- Every step of the run from `s` meets `P` in the state where it is taken. -/
def Along (P : σ → ι → Prop) (s : σ) : List ι → Prop
  | [] => True
  | i :: is => P s i ∧ ∀ r, step s i = some r → Along P r.1 is

variable {step} {s t u : σ} {i : ι} {is js : List ι} {log log₁ log₂ : List (ι × ω)} {P Q : σ → ι → Prop}

@[simp] theorem run_nil : run step s [] = some (s, []) := rfl

theorem run_cons_eq_some : run step s (i :: is) = some (u, log) ↔
    ∃ t o rest, step s i = some (t, o) ∧ run step t is = some (u, rest) ∧ log = (i, o) :: rest := by
  simp only [run, Option.bind_eq_some_iff, Option.map_eq_some_iff, Prod.mk.injEq, Prod.exists]
  constructor
  · rintro ⟨t, o, ho, v, rest, hr, rfl, rfl⟩
    exact ⟨t, o, rest, ho, hr, rfl⟩
  · rintro ⟨t, o, rest, ho, hr, rfl⟩
    exact ⟨t, o, ho, u, rest, hr, rfl, rfl⟩

theorem run_cons {o : ω} (h : step s i = some (t, o)) (hr : run step t is = some (u, log)) :
    run step s (i :: is) = some (u, (i, o) :: log) :=
  run_cons_eq_some.mpr ⟨t, o, log, h, hr, rfl⟩

theorem run_single {o : ω} (h : step s i = some (t, o)) : run step s [i] = some (t, [(i, o)]) := run_cons h run_nil

theorem run_append (h₁ : run step s is = some (t, log₁)) (h₂ : run step t js = some (u, log₂)) :
    run step s (is ++ js) = some (u, log₁ ++ log₂) := by
  induction is generalizing s log₁ with
  | nil =>
    obtain ⟨rfl, rfl⟩ : s = t ∧ [] = log₁ := by simpa using h₁
    exact h₂
  | cons i is ih =>
    obtain ⟨v, o, rest, hi, hr, rfl⟩ := run_cons_eq_some.mp h₁
    exact run_cons hi (ih hr)

theorem run_append_eq_some : run step s (is ++ js) = some (u, log) ↔
    ∃ t log₁ log₂, run step s is = some (t, log₁) ∧ run step t js = some (u, log₂) ∧ log = log₁ ++ log₂ := by
  constructor
  · intro h
    induction is generalizing s log with
    | nil => exact ⟨s, [], log, rfl, h, rfl⟩
    | cons i is ih =>
      obtain ⟨v, o, rest, hi, hr, rfl⟩ := run_cons_eq_some.mp h
      obtain ⟨t, log₁, log₂, h₁, h₂, rfl⟩ := ih hr
      exact ⟨t, _, log₂, run_cons hi h₁, h₂, rfl⟩
  · rintro ⟨t, log₁, log₂, h₁, h₂, rfl⟩
    exact run_append h₁ h₂

theorem run_single_eq_some : run step s [i] = some (u, log) ↔ ∃ o, step s i = some (u, o) ∧ log = [(i, o)] := by
  rw [run_cons_eq_some]
  constructor
  · rintro ⟨t, o, rest, ho, hr, rfl⟩
    obtain ⟨rfl, rfl⟩ := Prod.mk.inj (Option.some.inj hr)
    exact ⟨o, ho, rfl⟩
  · rintro ⟨o, ho, rfl⟩
    exact ⟨u, o, [], ho, rfl, rfl⟩

theorem run_inputs (h : run step s is = some (t, log)) : log.map Prod.fst = is := by
  induction is generalizing s log with
  | nil =>
    obtain ⟨-, rfl⟩ : s = t ∧ [] = log := by simpa using h
    rfl
  | cons i is ih =>
    obtain ⟨v, o, rest, -, hr, rfl⟩ := run_cons_eq_some.mp h
    rw [List.map_cons, ih hr]

/-- A run from a state that had to be built first, and whatever is computed from where it ends. -/
theorem run_of_bind {α β : Type} {built : Option α} {start : α → σ} {f : σ × List (ι × ω) → β} {b : β}
    (h : (built.bind fun a => (run step (start a) is).map f) = some b) :
    ∃ a t log, built = some a ∧ run step (start a) is = some (t, log) ∧ f (t, log) = b := by
  obtain ⟨a, ha, h⟩ := Option.bind_eq_some_iff.mp h
  obtain ⟨⟨t, log⟩, hrun, hb⟩ := Option.map_eq_some_iff.mp h
  exact ⟨a, t, log, ha, hrun, hb⟩

theorem Along.imp (hPQ : ∀ s i, P s i → Q s i) (h : Along step P s is) : Along step Q s is := by
  induction is generalizing s with
  | nil => exact trivial
  | cons i is ih => exact ⟨hPQ s i h.1, fun r hr => ih (h.2 r hr)⟩

theorem Along.and (hP : Along step P s is) (hQ : Along step Q s is) : Along step (fun s i => P s i ∧ Q s i) s is := by
  induction is generalizing s with
  | nil => exact trivial
  | cons i is ih => exact ⟨⟨hP.1, hQ.1⟩, fun r hr => ih (hP.2 r hr) (hQ.2 r hr)⟩

/-- Along a machine that never gets stuck. -/
theorem along_pure {f : σ → ι → σ × ω} : Along (fun s i => some (f s i)) P s (i :: is) ↔
    P s i ∧ Along (fun s i => some (f s i)) P (f s i).1 is := by
  refine and_congr_right fun _ => ⟨fun h => h _ rfl, fun h r hr => ?_⟩
  obtain rfl := Option.some.inj hr
  exact h

theorem Along.left (hP : Along step P s (is ++ js)) : Along step P s is := by
  induction is generalizing s with
  | nil => exact trivial
  | cons i is ih => exact ⟨hP.1, fun r hr => ih (hP.2 r hr)⟩

theorem Along.append (hP : Along step P s (is ++ js)) (hr : run step s is = some (t, log)) : Along step P t js := by
  induction is generalizing s log with
  | nil =>
    obtain ⟨rfl, -⟩ : s = t ∧ [] = log := by simpa using hr
    exact hP
  | cons i is ih =>
    obtain ⟨v, o, rest, hi, hr, -⟩ := run_cons_eq_some.mp hr
    exact ih (hP.2 _ hi) hr

/-- What an invariant gives at every step that meets `P` holds along the run. -/
theorem Along.rule {I : σ → Prop} (hstep : ∀ s i, I s → P s i → Q s i ∧ ∀ r, step s i = some r → I r.1) (h : I s)
    (hP : Along step P s is) : Along step Q s is := by
  induction is generalizing s with
  | nil => exact trivial
  | cons i is ih =>
    obtain ⟨hQ, hI⟩ := hstep s i h hP.1
    exact ⟨hQ, fun r hr => ih (hI r hr) (hP.2 r hr)⟩

/-- Along a machine whose every step is one of a simpler machine. -/
theorem Along.lift {τ ρ : Type} {step' : τ → ι → Option (τ × ρ)} {u : τ} (proj : τ → σ)
    (hproj : ∀ u i r, step' u i = some r → ∃ o, step (proj u) i = some (proj r.1, o)) (hP : Along step P (proj u) is) :
    Along step' (fun u i => P (proj u) i) u is := by
  induction is generalizing u with
  | nil => exact trivial
  | cons i is ih =>
    refine ⟨hP.1, fun r hr => ih ?_⟩
    obtain ⟨o, ho⟩ := hproj u i r hr
    exact hP.2 _ ho

/-- A condition that the inputs meet in every state holds along every run over them. -/
theorem Along.of_forall (h : ∀ i ∈ is, ∀ s, P s i) : Along step P s is := by
  induction is generalizing s with
  | nil => exact trivial
  | cons i is ih =>
    exact ⟨h i List.mem_cons_self s, fun r _ => ih fun j hj => h j (List.mem_cons_of_mem i hj)⟩

theorem run_rule_from {I : List (ι × ω) → σ → Prop}
    (hstep : ∀ log s i, I log s → P s i → ∃ t o, step s i = some (t, o) ∧ I (log ++ [(i, o)]) t) (log : List (ι × ω))
    (h : I log s) (hP : Along step P s is) : ∃ t log', run step s is = some (t, log') ∧ I (log ++ log') t := by
  induction is generalizing s log with
  | nil => exact ⟨s, [], rfl, by simpa using h⟩
  | cons i is ih =>
    obtain ⟨t, o, hs, ht⟩ := hstep log s i h hP.1
    obtain ⟨u, log', hr, hu⟩ := ih _ ht (hP.2 _ hs)
    exact ⟨u, (i, o) :: log', run_cons hs hr, by simpa using hu⟩

/-- A run whose steps all succeed and keep `I`, an invariant of the log so far and the state, succeeds
    and ends in `I`. -/
theorem run_rule {I : List (ι × ω) → σ → Prop}
    (hstep : ∀ log s i, I log s → P s i → ∃ t o, step s i = some (t, o) ∧ I (log ++ [(i, o)]) t)
    (h : I [] s) (hP : Along step P s is) : ∃ t log, run step s is = some (t, log) ∧ I log t :=
  run_rule_from hstep [] h hP

/-- What each step of such a run gives, for the log and the state that the step finds. -/
theorem run_each {I : List (ι × ω) → σ → Prop} {R : List (ι × ω) → σ → σ → ω → Prop}
    (hstep : ∀ log s i, I log s → P s i → ∃ t o, step s i = some (t, o) ∧ I (log ++ [(i, o)]) t ∧ R log s t o)
    (h : I [] s) (hP : Along step P s (is ++ i :: js)) (hrun : run step s is = some (t, log)) {o : ω}
    (hi : step t i = some (u, o)) : R log t u o := by
  obtain ⟨t', log', hrun', ht⟩ := run_rule (fun log s i hI hP => by
    obtain ⟨t, o, hs, ht, -⟩ := hstep log s i hI hP
    exact ⟨t, o, hs, ht⟩) h hP.left
  obtain ⟨rfl, rfl⟩ := Prod.mk.inj (Option.some.inj (hrun'.symm.trans hrun))
  obtain ⟨u', o', hi', -, hR⟩ := hstep _ _ _ ht (hP.append hrun).1
  obtain ⟨rfl, rfl⟩ := Prod.mk.inj (Option.some.inj (hi'.symm.trans hi))
  exact hR

/-- `run_rule` for an invariant of the state alone. -/
theorem run_inv {I : σ → Prop} (hstep : ∀ s i, I s → P s i → ∃ t o, step s i = some (t, o) ∧ I t) (h : I s)
    (hP : Along step P s is) : ∃ t log, run step s is = some (t, log) ∧ I t :=
  run_rule (I := fun _ s => I s) (fun _ s i hs hi => hstep s i hs hi) h hP

/-- Inputs that leave the machine as it is, and that an observer of the log does not see, can be left out of a run. -/
theorem run_drop {β : Type} {I : σ → Prop} {keep : ι × ω → Bool} {view : ι × ω → List β}
    (hstep : ∀ s i t o, I s → step s i = some (t, o) → I t ∧ (keep (i, o) = false → t = s ∧ view (i, o) = [])) (h : I s)
    (hrun : run step s is = some (t, log)) : run step s ((log.filter keep).map Prod.fst) = some (t, log.filter keep) ∧
      (log.filter keep).flatMap view = log.flatMap view := by
  induction is generalizing s log with
  | nil =>
    obtain ⟨rfl, rfl⟩ : s = t ∧ [] = log := by simpa using hrun
    exact ⟨rfl, rfl⟩
  | cons i is ih =>
    obtain ⟨u, o, rest, hi, hrest, rfl⟩ := run_cons_eq_some.mp hrun
    obtain ⟨hu, hsame⟩ := hstep s i u o h hi
    obtain ⟨ih, hview⟩ := ih hu hrest
    cases hkeep : keep (i, o) with
    | true =>
      rw [List.filter_cons_of_pos hkeep, List.map_cons, List.flatMap_cons, List.flatMap_cons, hview]
      exact ⟨run_cons hi ih, rfl⟩
    | false =>
      obtain ⟨rfl, hnil⟩ := hsame hkeep
      rw [List.filter_cons_of_neg (Bool.eq_false_iff.mp hkeep), List.flatMap_cons, hnil, List.nil_append]
      exact ⟨ih, hview⟩

theorem along_iff_from {I J : List (ι × ω) → σ → Prop} {Q : ι → Prop} (hIJ : ∀ log s, I log s → J log s)
    (hkeep : ∀ log s i, I log s → Q i → P s i → ∃ t o, step s i = some (t, o) ∧ I (log ++ [(i, o)]) t)
    (hbreak : ∀ log s i, I log s → Q i → ¬P s i → ∃ t o, step s i = some (t, o) ∧ ¬J (log ++ [(i, o)]) t)
    (log : List (ι × ω)) (h : I log s) (hQ : ∀ i ∈ is, Q i) :
    Along step P s is ↔ ∀ pre post t log', is = pre ++ post → run step s pre = some (t, log') → J (log ++ log') t := by
  induction is generalizing s log with
  | nil =>
    refine ⟨fun _ pre post t log' hpre hr => ?_, fun _ => trivial⟩
    obtain ⟨rfl, rfl⟩ := List.append_eq_nil_iff.mp hpre.symm
    obtain ⟨rfl, rfl⟩ : s = t ∧ [] = log' := by simpa using hr
    rw [List.append_nil]
    exact hIJ _ _ h
  | cons i is ih =>
    have hi := hQ i List.mem_cons_self
    have hQ := fun j hj => hQ j (List.mem_cons_of_mem i hj)
    by_cases hP : P s i
    · obtain ⟨t, o, hs, ht⟩ := hkeep log s i h hi hP
      constructor
      · intro hall pre post u log' hpre hr
        cases pre with
        | nil =>
          obtain ⟨rfl, rfl⟩ : s = u ∧ [] = log' := by simpa using hr
          rw [List.append_nil]
          exact hIJ _ _ h
        | cons j pre =>
          obtain ⟨rfl, rfl⟩ := List.cons.inj hpre
          obtain ⟨v, o', rest, hs', hrest, rfl⟩ := run_cons_eq_some.mp hr
          obtain ⟨rfl, rfl⟩ := Prod.mk.inj (Option.some.inj (hs.symm.trans hs'))
          have := (ih _ ht hQ).mp (hall.2 _ hs) pre post u rest rfl hrest
          simpa using this
      · intro hall
        refine ⟨hP, fun r hr => ?_⟩
        obtain rfl := Option.some.inj (hs.symm.trans hr)
        refine (ih _ ht hQ).mpr fun pre post u log' hpre hr => ?_
        have := hall (i :: pre) post u ((i, o) :: log') (by rw [hpre, List.cons_append]) (run_cons hs hr)
        simpa using this
    · obtain ⟨t, o, hs, ht⟩ := hbreak log s i h hi hP
      exact ⟨fun hall => absurd hall.1 hP, fun hall => absurd (hall [i] is t _ rfl (run_single hs)) ht⟩

/-- If a step that meets `P` keeps `I`, and one that does not ends outside `J`, a run meets `P` at each step
    exactly if `J` holds after each step. -/
theorem along_iff {I J : List (ι × ω) → σ → Prop} {Q : ι → Prop} (hIJ : ∀ log s, I log s → J log s)
    (hkeep : ∀ log s i, I log s → Q i → P s i → ∃ t o, step s i = some (t, o) ∧ I (log ++ [(i, o)]) t)
    (hbreak : ∀ log s i, I log s → Q i → ¬P s i → ∃ t o, step s i = some (t, o) ∧ ¬J (log ++ [(i, o)]) t)
    (h : I [] s) (hQ : ∀ i ∈ is, Q i) :
    Along step P s is ↔ ∀ pre post t log, is = pre ++ post → run step s pre = some (t, log) → J log t :=
  along_iff_from hIJ hkeep hbreak [] h hQ

end Run

section Unwinding
variable {σ ι ω κ β : Type} {step : σ → ι → Option (σ × ω)} {R : σ → σ → Prop} {key : ι → Option κ}
  {view : ι × ω → List β} {s t : σ} {is js : List ι}

/-- An observer sees of an input only its `key`, nothing of an input without one, and of an entry of the log only
    its `view`. States related by `R` look alike to the observer: hidden inputs are not seen, and inputs with the
    same key look the same. -/
structure Unwinding (step : σ → ι → Option (σ × ω)) (R : σ → σ → Prop) (key : ι → Option κ)
    (view : ι × ω → List β) : Prop where
  symm : ∀ s t, R s t → R t s
  hidden : ∀ s t i, R s t → key i = none → ∃ s' o, step s i = some (s', o) ∧ R s' t ∧ view (i, o) = []
  seen : ∀ s t i j k, R s t → key i = some k → key j = some k → ∃ s' o t' o', step s i = some (s', o) ∧
    step t j = some (t', o') ∧ R s' t' ∧ view (i, o) = view (j, o')

namespace Unwinding

theorem run_hidden (h : Unwinding step R key view) (hR : R s t) (his : ∀ i ∈ is, key i = none) :
    ∃ s' log, run step s is = some (s', log) ∧ R s' t ∧ log.flatMap view = [] := by
  induction is generalizing s with
  | nil => exact ⟨s, [], rfl, hR, rfl⟩
  | cons i is ih =>
    obtain ⟨u, o, hstep, hu, hview⟩ := h.hidden s t i hR (his i List.mem_cons_self)
    obtain ⟨s', log, hrun, hs', hlog⟩ := ih hu fun j hj => his j (List.mem_cons_of_mem i hj)
    exact ⟨s', (i, o) :: log, run_cons hstep hrun, hs', by rw [List.flatMap_cons, hview, hlog]; rfl⟩

/-- Two runs over inputs with the same keys look alike, however the hidden inputs stand between them. -/
theorem runs_agree (h : Unwinding step R key view) (hR : R s t) (hkey : is.filterMap key = js.filterMap key) :
    ∃ s' log t' log', run step s is = some (s', log) ∧ run step t js = some (t', log') ∧ R s' t' ∧
      log.flatMap view = log'.flatMap view := by
  induction is generalizing s t js with
  | nil =>
    have hjs : ∀ j ∈ js, key j = none := List.filterMap_eq_nil_iff.mp hkey.symm
    obtain ⟨t', log', hrun, ht', hlog'⟩ := h.run_hidden (h.symm s t hR) hjs
    exact ⟨s, [], t', log', rfl, hrun, h.symm t' s ht', hlog'.symm⟩
  | cons i is ih =>
    cases hi : key i with
    | none =>
      rw [List.filterMap_cons_none hi] at hkey
      obtain ⟨u, o, hstep, hu, hview⟩ := h.hidden s t i hR hi
      obtain ⟨s', log, t', log', hrun, hrun', hR', hlog⟩ := ih hu hkey
      refine ⟨s', (i, o) :: log, t', log', run_cons hstep hrun, hrun', hR', ?_⟩
      rw [List.flatMap_cons, hview, hlog]
      rfl
    | some k =>
      -- The other run takes its hidden inputs up to the first one with this key.
      rw [List.filterMap_cons_some hi] at hkey
      obtain ⟨pre, j, post, rfl, hpre, hj, hpost⟩ := List.filterMap_eq_cons_iff.mp hkey.symm
      obtain ⟨v, log₁, hrun₁, hv, hlog₁⟩ := h.run_hidden (h.symm s t hR) hpre
      obtain ⟨u, o, w, o', hstep, hstep', huw, hview⟩ := h.seen s v i j k (h.symm v s hv) hi hj
      obtain ⟨s', log, t', log₂, hrun, hrun₂, hR', hlog⟩ := ih huw hpost.symm
      refine ⟨s', (i, o) :: log, t', log₁ ++ (j, o') :: log₂, run_cons hstep hrun,
        run_append hrun₁ (run_cons hstep' hrun₂), hR', ?_⟩
      rw [List.flatMap_append, hlog₁, List.nil_append, List.flatMap_cons, List.flatMap_cons, hview, hlog]

end Unwinding

end Unwinding

section Lockstep
variable {σ τ ι κ ω ρ : Type} {step : σ → ι → Option (σ × ω)} {step' : τ → κ → Option (τ × ρ)} {R : σ → τ → Prop}
  {K : ι → κ → Prop} {E : ι × ω → κ × ρ → Prop} {s : σ} {t : τ} {is : List ι} {js : List κ}

/-- Two machines that take related inputs one by one stay in related states and make related entries in their logs. -/
theorem run_lockstep (hstep : ∀ s t i j, R s t → K i j → ∃ s' o t' o', step s i = some (s', o) ∧ step' t j = some (t', o') ∧
      R s' t' ∧ E (i, o) (j, o')) (hR : R s t) (hK : List.Forall₂ K is js) :
    ∃ s' log t' log', run step s is = some (s', log) ∧ run step' t js = some (t', log') ∧ R s' t' ∧
      List.Forall₂ E log log' := by
  induction hK generalizing s t with
  | nil => exact ⟨s, [], t, [], rfl, rfl, hR, .nil⟩
  | cons hij _ ih =>
    obtain ⟨u, o, v, o', hi, hj, huv, hE⟩ := hstep s t _ _ hR hij
    obtain ⟨s', log, t', log', hrun, hrun', hR', hlog⟩ := ih huv
    exact ⟨s', _, t', _, run_cons hi hrun, run_cons hj hrun', hR', .cons hE hlog⟩

end Lockstep

section Projection
variable {σ ι ω τ κ ρ : Type} {step : σ → ι → Option (σ × ω)} {part : τ → κ → Option (τ × ρ)} {proj : σ → τ}
  {key : ι → Option κ} {view : ω → ρ} {s t : σ} {is : List ι} {log : List (ι × ω)}

/-- A machine seen through one of its parts: an input without a key leaves the part as it is, and an input with a
    key is a step of the part. -/
structure Projects (step : σ → ι → Option (σ × ω)) (part : τ → κ → Option (τ × ρ)) (proj : σ → τ) (key : ι → Option κ)
    (view : ω → ρ) : Prop where
  hidden : ∀ s i t o, step s i = some (t, o) → key i = none → proj t = proj s
  seen : ∀ s i t o k, step s i = some (t, o) → key i = some k → part (proj s) k = some (proj t, view o)

/-- What the part sees of an entry of the log. -/
def seenEntry (key : ι → Option κ) (view : ω → ρ) (e : ι × ω) : Option (κ × ρ) := (key e.1).map fun k => (k, view e.2)

/-- A run of the machine is a run of the part on the inputs that have a key. -/
theorem Projects.run (h : Projects step part proj key view) (hrun : run step s is = some (t, log)) :
    Machine.run part (proj s) (is.filterMap key) = some (proj t, log.filterMap (seenEntry key view)) := by
  induction is generalizing s log with
  | nil =>
    obtain ⟨rfl, rfl⟩ : s = t ∧ [] = log := by simpa using hrun
    rfl
  | cons i is ih =>
    obtain ⟨u, o, rest, hi, hrest, rfl⟩ := run_cons_eq_some.mp hrun
    have ih := ih hrest
    cases hk : key i with
    | none =>
      have hentry : seenEntry key view (i, o) = none := by rw [seenEntry, hk, Option.map_none]
      rw [List.filterMap_cons_none hk, List.filterMap_cons_none hentry, ← h.hidden s i u o hi hk]
      exact ih
    | some k =>
      have hentry : seenEntry key view (i, o) = some (k, view o) := by rw [seenEntry, hk, Option.map_some]
      rw [List.filterMap_cons_some hk, List.filterMap_cons_some hentry]
      exact run_cons (h.seen s i u o k hi hk) ih

end Projection

section Steps
variable {σ ε : Type} {R S : σ → ε → σ → Prop} {s t u : σ} {es es₁ es₂ : List ε}

/-- Finitely many steps of a labelled relation, with their labels in order. -/
inductive Steps (R : σ → ε → σ → Prop) : σ → List ε → σ → Prop
  | nil (s : σ) : Steps R s [] s
  | cons {s t u : σ} {e : ε} {es : List ε} : R s e t → Steps R t es u → Steps R s (e :: es) u

namespace Steps

theorem single {e : ε} (h : R s e t) : Steps R s [e] t := .cons h (.nil t)

theorem append (h₁ : Steps R s es₁ t) (h₂ : Steps R t es₂ u) : Steps R s (es₁ ++ es₂) u := by
  induction h₁ with
  | nil => exact h₂
  | cons h _ ih => exact .cons h (ih h₂)

theorem rule_from {I : List ε → σ → Prop} (hstep : ∀ es s e t, I es s → e ∈ es₂ → R s e t → I (es ++ [e]) t)
    (es₁ : List ε) (hI : I es₁ s) (h : Steps R s es₂ t) : I (es₁ ++ es₂) t := by
  induction h generalizing es₁ with
  | nil => simpa using hI
  | @cons s t u e es hR _ ih =>
    have := ih (fun es' s e' t h' he' => hstep es' s e' t h' (List.mem_cons_of_mem e he')) _
      (hstep es₁ s e t hI List.mem_cons_self hR)
    simpa using this

/-- An invariant of the labels so far and the state is kept by finitely many steps. -/
theorem rule {I : List ε → σ → Prop} (hstep : ∀ l s e t, I l s → e ∈ es → R s e t → I (l ++ [e]) t) (hI : I [] s)
    (h : Steps R s es t) : I es t :=
  rule_from hstep [] hI h

/-- `rule` for an invariant of the state alone. -/
theorem inv {I : σ → Prop} (hstep : ∀ s e t, I s → e ∈ es → R s e t → I t) (hI : I s) (h : Steps R s es t) : I t :=
  rule (I := fun _ s => I s) (fun _ s e t hs he hR => hstep s e t hs he hR) hI h

end Steps

end Steps

end Machine
