import Crosspoint.BitPool

/-! A sound pool behaves as an array of `nBits` flags: below `nBits` every read and write succeeds, and a
    write changes the flag it names and no other. A heap pool is sound up to the size at which the narrowing
    in `wordsFor` starts to lose words, and over that size it is not an array of `nBits` flags any more. -/

namespace Crosspoint.BitPool

/-- Every bit below `nBits` lies in an allocated word. -/
structure Sound (p : BitPool) : Prop where
  allocated : ∃ words, p.words = some words ∧ p.nWords.toNat ≤ words.size
  room : p.nBits.toNat ≤ 32 * p.nWords.toNat

variable {p q : BitPool} {n m : UInt32} {v : Bool}

theorem Sound.valid (h : p.Sound) : p.valid = true := by
  obtain ⟨words, hw, -⟩ := h.allocated
  rw [BitPool.valid, hw]
  rfl

theorem wordIndex_eq_some {i : Nat} : p.wordIndex n = some i ↔
    n.toNat < p.nBits.toNat ∧ n.toNat / 32 < p.nWords.toNat ∧ i = n.toNat / 32 := by
  simp only [wordIndex, UInt32.lt_iff_toNat_lt, Words.toNat_shiftRight_5, Option.ite_none_right_eq_some,
    Option.some.injEq, and_assoc, eq_comm (a := i)]

/-- A read that succeeds is of an index below `nBits`, in a word below `nWords`. -/
theorem get_eq_some {b : Bool} (h : p.get n = some b) :
    n.toNat < p.nBits.toNat ∧ n.toNat / 32 < p.nWords.toNat := by
  simp only [get, bind, Option.bind_eq_some_iff] at h
  obtain ⟨_, -, i, hi, -⟩ := h
  obtain ⟨h1, h2, -⟩ := wordIndex_eq_some.mp hi
  exact ⟨h1, h2⟩

/-- A write that succeeds is of such an index too, and keeps the size of the pool. -/
theorem set_eq_some (h : p.set n v = some q) :
    (n.toNat < p.nBits.toNat ∧ n.toNat / 32 < p.nWords.toNat) ∧ q.nBits = p.nBits ∧ q.nWords = p.nWords := by
  simp only [set, bind, Option.bind_eq_some_iff] at h
  obtain ⟨_, -, i, hi, _, -, hq⟩ := h
  obtain ⟨h1, h2, -⟩ := wordIndex_eq_some.mp hi
  obtain rfl := Option.some.inj hq
  exact ⟨⟨h1, h2⟩, rfl, rfl⟩

/-- Writing the value that a flag has changes nothing. -/
theorem set_self (h : p.get n = some v) : p.set n v = some p := by
  simp only [get, bind, Option.bind_eq_some_iff] at h
  obtain ⟨words, hwords, i, hi, w, hw, hv⟩ := h
  obtain rfl := Option.some.inj hv
  obtain ⟨hlt, rfl⟩ := Array.getElem?_eq_some_iff.mp hw
  have hsame : words.setIfInBounds i (Words.withBit words[i] n (Words.bit words[i] n)) = words := by
    rw [Words.withBit_self, Array.setIfInBounds, dif_pos hlt, Array.set_getElem_self]
  simp only [set, hwords, hi, hw, bind, Option.bind_some, hsame]
  rw [← hwords]
  rfl

theorem Sound.wordIndex (h : p.Sound) (hn : n.toNat < p.nBits.toNat) : p.wordIndex n = some (n.toNat / 32) := by
  have hroom := h.room
  exact wordIndex_eq_some.mpr ⟨hn, by omega, rfl⟩

theorem Sound.get_eq (h : p.Sound) {words : Array UInt32} (hw : p.words = some words) (hn : n.toNat < p.nBits.toNat) :
    p.get n = words[n.toNat / 32]?.map fun w => Words.bit w n := by
  simp [get, hw, h.wordIndex hn, Option.map_eq_bind]

theorem Sound.get_isSome (h : p.Sound) (hn : n.toNat < p.nBits.toNat) : ∃ b, p.get n = some b := by
  obtain ⟨words, hw, hsize⟩ := h.allocated
  have hroom := h.room
  have hi : n.toNat / 32 < words.size := by omega
  exact ⟨_, by rw [h.get_eq hw hn, Array.getElem?_eq_getElem hi, Option.map_some]⟩

/-- Below `nBits` a write succeeds and changes the flag it names and no other. -/
theorem Sound.set (h : p.Sound) (hn : n.toNat < p.nBits.toNat) (v : Bool) :
    ∃ q, p.set n v = some q ∧ q.Sound ∧ q.nBits = p.nBits ∧ q.nWords = p.nWords ∧
      ∀ m, m.toNat < p.nBits.toNat → q.get m = if m = n then some v else p.get m := by
  obtain ⟨words, hw, hsize⟩ := h.allocated
  have hroom := h.room
  have hi : n.toNat / 32 < words.size := by omega
  let words' := words.setIfInBounds (n.toNat / 32) (Words.withBit words[n.toNat / 32] n v)
  have hq : BitPool.Sound { p with words := some words' } :=
    ⟨⟨words', rfl, by simp only [words', Array.size_setIfInBounds]; exact hsize⟩, h.room⟩
  refine ⟨{ p with words := some words' }, ?_, hq, rfl, rfl, fun m hm => ?_⟩
  · simp [BitPool.set, hw, h.wordIndex hn, hi, words']
  · rw [hq.get_eq rfl hm, h.get_eq hw hm, Array.getElem?_setIfInBounds]
    by_cases hword : n.toNat / 32 = m.toNat / 32
    · have hj : m.toNat / 32 < words.size := hword ▸ hi
      by_cases hbit : n.toNat % 32 = m.toNat % 32
      · obtain rfl : m = n := UInt32.toNat_inj.mp (by omega)
        simp [hi, Words.bit_withBit]
      · have hne : m ≠ n := fun e => hbit (by rw [e])
        simp [hword, hj, hbit, hne, Words.bit_withBit]
    · have hne : m ≠ n := fun e => hword (by rw [e])
      simp [hword, hne]

/-- Clearing an allocated pool succeeds and leaves every flag false. -/
theorem Sound.clear (h : p.Sound) :
    ∃ q, p.clear = some q ∧ q.Sound ∧ q.nBits = p.nBits ∧ q.nWords = p.nWords ∧
      ∀ m, m.toNat < p.nBits.toNat → q.get m = some false := by
  obtain ⟨words, hw, hsize⟩ := h.allocated
  let words' := words.mapIdx fun i w => if i < p.nWords.toNat then 0 else w
  have hq : BitPool.Sound { p with words := some words' } :=
    ⟨⟨words', rfl, by simp only [words', Array.size_mapIdx]; exact hsize⟩, h.room⟩
  refine ⟨{ p with words := some words' }, ?_, hq, rfl, rfl, fun m hm => ?_⟩
  · simp [BitPool.clear, hw, hsize, words']
  · have hroom := h.room
    have hm' : m.toNat / 32 < p.nWords.toNat := by omega
    have hi : m.toNat / 32 < words.size := by omega
    rw [hq.get_eq rfl hm]
    simp [words', hm', hi, Words.bit_eq_testBit]

/-! ### The size of a heap pool -/

theorem wordsFor_le (nBits : UInt32) : (wordsFor nBits).toNat ≤ 65535 := by
  have := (wordsFor nBits).toNat_lt
  omega

/-- Up to 65535 words neither the addition nor the narrowing of `wordsFor` loses anything. -/
theorem le_wordsFor {nBits : UInt32} (h : nBits.toNat ≤ 2097120) : nBits.toNat ≤ 32 * (wordsFor nBits).toNat := by
  rw [wordsFor]
  split
  · rename_i h0
    rw [h0]
    exact Nat.zero_le _
  · have h31 : (nBits + 31).toNat = nBits.toNat + 31 := by
      rw [UInt32.toNat_add, show (31 : UInt32).toNat = 31 from rfl]
      omega
    rw [UInt32.toNat_toUInt16, UInt32.toNat_div, h31, show (32 : UInt32).toNat = 32 from rfl]
    omega

theorem heap_sound {nBits : UInt32} (h : nBits.toNat ≤ 2097120) (hpos : 0 < nBits.toNat) : (heap nBits).Sound := by
  have hroom := le_wordsFor h
  have hwords : wordsFor nBits > 0 := UInt16.lt_iff_toNat_lt.mpr (by rw [UInt16.toNat_zero]; omega)
  exact ⟨⟨Array.replicate (wordsFor nBits).toNat 0, if_pos hwords, by simp [heap]⟩, hroom⟩

/-- Every flag of a new pool is false. -/
theorem heap_get {nBits : UInt32} (h : nBits.toNat ≤ 2097120) (hn : n.toNat < nBits.toNat) :
    (heap nBits).get n = some false := by
  have hs := heap_sound h (by omega)
  obtain ⟨words, hw, hsize⟩ := hs.allocated
  have hroom := le_wordsFor h
  have hi : n.toNat / 32 < (wordsFor nBits).toNat := by omega
  have hwords : words = Array.replicate (wordsFor nBits).toNat 0 := by
    unfold heap at hw
    dsimp only at hw
    split at hw
    · exact (Option.some.inj hw).symm
    · cases hw
  rw [hs.get_eq hw hn, hwords]
  simp [hi, Words.bit_eq_testBit]

/-! ### Runs of calls -/

theorem lastValue_concat {ops : List PoolOp} {op : PoolOp} :
    lastValue n (ops ++ [op]) = if op.writes n then op.value else lastValue n ops := by
  rw [lastValue, Traces.lastWhere_concat]
  split <;> rfl

/-- The pool stands after the calls of `log`: each flag is the last value written to it. -/
structure Holds (nBits : UInt32) (log : List (PoolOp × Option Bool)) (p : BitPool) : Prop where
  size : p.nBits = nBits
  sound : 0 < nBits.toNat → p.Sound
  null : nBits.toNat = 0 → p.words = none
  flag : ∀ n, n.toNat < nBits.toNat → p.get n = some (lastValue n (log.map Prod.fst))
  answers : Traces.Preceded Answered log

theorem holds_heap {nBits : UInt32} (h : nBits.toNat ≤ 2097120) : Holds nBits [] (heap nBits) where
  size := rfl
  sound := heap_sound h
  null h0 := by
    obtain rfl : nBits = 0 := UInt32.toNat_inj.mp h0
    rfl
  flag n hn := heap_get h hn
  answers := Traces.preceded_nil

section Step
variable {nBits : UInt32} {log : List (PoolOp × Option Bool)}

/-- Flags that are as the call says leave the pool as the longer log says. -/
theorem Holds.concat {op : PoolOp} {answer : Option Bool} (h : Holds nBits log p) (hb : q.nBits = nBits)
    (hs : 0 < nBits.toNat → q.Sound) (h0 : nBits.toNat = 0 → q.words = none)
    (hf : ∀ m, m.toNat < nBits.toNat → q.get m = if op.writes m then some op.value else p.get m)
    (ha : Answered log (op, answer)) : Holds nBits (log ++ [(op, answer)]) q where
  size := hb
  sound := hs
  null := h0
  flag m hm := by
    rw [hf m hm, h.flag m hm, List.map_append, List.map_cons, List.map_nil, lastValue_concat, apply_ite some]
  answers := Traces.preceded_concat.mpr ⟨h.answers, ha⟩

theorem Holds.step (h : Holds nBits log p) {op : PoolOp} (hop : ∀ n, op.index = some n → n < nBits) :
    ∃ q answer, p.step op = some (q, answer) ∧ Holds nBits (log ++ [(op, answer)]) q := by
  cases op with
  | get n =>
    have hn : n.toNat < nBits.toNat := UInt32.lt_iff_toNat_lt.mp (hop n rfl)
    refine ⟨p, _, congrArg (Option.map _) (h.flag n hn), h.concat h.size h.sound h.null (fun _ _ => rfl) ?_⟩
    rintro m hm
    cases hm
    rfl
  | set n v =>
    have hn : n.toNat < nBits.toNat := UInt32.lt_iff_toNat_lt.mp (hop n rfl)
    have hp := h.size
    obtain ⟨q, hq, hs, hb, -, hget⟩ := (h.sound (by omega)).set (hp ▸ hn) v
    refine ⟨q, none, congrArg (Option.map _) hq, h.concat (hb.trans hp) (fun _ => hs) (fun h0 => by omega)
      (fun m hm => ?_) (fun m hm => by cases hm)⟩
    rw [hget m (hp ▸ hm)]
    simp [PoolOp.writes, PoolOp.value, eq_comm (a := n)]
  | clear =>
    rcases Nat.eq_zero_or_pos nBits.toNat with h0 | hpos
    · have hclear : p.clear = some p := by
        unfold BitPool.clear
        rw [h.null h0]
      exact ⟨p, none, congrArg (Option.map _) hclear,
        h.concat h.size h.sound h.null (fun m hm => by omega) (fun m hm => by cases hm)⟩
    · obtain ⟨q, hq, hs, hb, -, hget⟩ := (h.sound hpos).clear
      refine ⟨q, none, congrArg (Option.map _) hq, h.concat (hb.trans h.size) (fun _ => hs) (fun h0 => by omega)
        (fun m hm => ?_) (fun m hm => by cases hm)⟩
      exact hget m (h.size ▸ hm)

end Step

/-- A heap pool is an array of `nBits` flags exactly up to 65535 words. -/
theorem faithful_iff (nBits : UInt32) : Faithful nBits ↔ nBits.toNat ≤ 2097120 := by
  constructor
  · intro h
    by_cases h0 : nBits = 0
    · rw [h0]
      exact Nat.zero_le _
    · -- The last flag lies in a word that is not there.
      have hpos : 0 < nBits.toNat := Nat.pos_of_ne_zero fun hz => h0 (UInt32.toNat_inj.mp hz)
      have hlast : (nBits - 1).toNat = nBits.toNat - 1 :=
        UInt32.toNat_sub_of_le _ _ (UInt32.le_iff_toNat_le.mpr hpos)
      have hops : ∀ op ∈ [PoolOp.get (nBits - 1)], ∀ n, op.index = some n → n < nBits := by
        simp only [List.mem_singleton, forall_eq, PoolOp.index, Option.some.injEq, forall_eq']
        exact UInt32.lt_iff_toNat_lt.mpr (by omega)
      have hword := (h _ hops).1 _ (List.mem_singleton_self _) _ rfl
      rw [Words.toNat_shiftRight_5, hlast] at hword
      have := wordsFor_le nBits
      omega
  · intro h ops hops
    have hroom := le_wordsFor h
    constructor
    · intro op hop n hn
      have hlt := UInt32.lt_iff_toNat_lt.mp (hops op hop n hn)
      rw [Words.toNat_shiftRight_5]
      omega
    · obtain ⟨q, log, hrun, hq⟩ := Machine.run_rule (I := Holds nBits)
        (P := fun _ op => ∀ n, op.index = some n → n < nBits) (fun _ _ _ hp hop => hp.step hop) (holds_heap h)
        (Machine.Along.of_forall fun op hop _ => hops op hop)
      exact ⟨q, log, hrun, hq.answers⟩

/-- One flag more, and the narrowed word count is zero: the pool has no words at all. -/
theorem not_faithful_over_limit : wordsFor 2097121 = 0 ∧ (heap 2097121).words = none ∧
    (heap 2097121).run [.set 0 true, .get 0] = none ∧ ¬Faithful 2097121 := by
  have hw : wordsFor 2097121 = 0 := by decide
  have hnull : (heap 2097121).words = none := by
    unfold heap
    rw [hw]
    rfl
  have hset : (heap 2097121).set 0 true = none := by
    rw [BitPool.set, hnull]
    rfl
  have hrun : (heap 2097121).run [.set 0 true, .get 0] = none := by
    rw [run, Machine.run, step, hset]
    rfl
  refine ⟨hw, hnull, hrun, fun h => ?_⟩
  have hops : ∀ op ∈ [PoolOp.set 0 true, .get 0], ∀ n, op.index = some n → n < (2097121 : UInt32) := by
    simp [PoolOp.index]
  obtain ⟨q, log, hsome, -⟩ := (h _ hops).2
  rw [hrun] at hsome
  cases hsome

end Crosspoint.BitPool
