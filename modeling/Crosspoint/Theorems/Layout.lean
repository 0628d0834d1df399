import Crosspoint.Tables
import Crosspoint.Theorems.BitPool

/-! The layout of the packed pool: the three sections lie side by side in `poolBits` bits, distinct entries
    have distinct bits, and 32 bits are enough for every index. Hence a well-formed matrix reads its tables
    from the pool, and a write of one entry changes that entry of `tables` and nothing else. -/

namespace Crosspoint.XPoint

/-! ### Indices in 32 bits -/

theorem mul_le (a b : UInt8) : a.toNat * b.toNat ≤ 255 * 255 :=
  Nat.mul_le_mul (by have := a.toNat_lt; omega) (by have := b.toNat_lt; omega)

theorem toNat_index {base : UInt32} (a n b : UInt8) (h : base.toNat ≤ 2 * (255 * 255)) :
    (base + a.toUInt32 * n.toUInt32 + b.toUInt32).toNat = base.toNat + a.toNat * n.toNat + b.toNat := by
  have := mul_le a n
  have := b.toNat_lt
  simp only [UInt32.toNat_add, UInt32.toNat_mul, UInt8.toNat_toUInt32]
  omega

variable {x : XPoint} {r c r' c' a b a' b' : UInt8} {v : Bool}

theorem nodeBit_toNat : (x.nodeBit r c).toNat = r.toNat * x.cols.toNat + c.toNat := by
  have := mul_le r x.cols
  have := c.toNat_lt
  simp only [nodeBit, UInt32.toNat_add, UInt32.toNat_mul, UInt8.toNat_toUInt32]
  omega

theorem ilockOff_toNat : x.ilockOff.toNat = x.rows.toNat * x.cols.toNat := by
  have := mul_le x.rows x.cols
  simp only [ilockOff, UInt32.toNat_mul, UInt8.toNat_toUInt32]
  omega

theorem exclOff_toNat : x.exclOff.toNat = x.rows.toNat * x.cols.toNat + x.rows.toNat * x.rows.toNat := by
  have := mul_le x.rows x.cols
  have := mul_le x.rows x.rows
  simp only [exclOff, UInt32.toNat_add, UInt32.toNat_mul, UInt8.toNat_toUInt32]
  omega

theorem ilockBit_toNat : (x.ilockBit a b).toNat = x.rows.toNat * x.cols.toNat + a.toNat * x.rows.toNat + b.toNat := by
  have := mul_le x.rows x.cols
  rw [ilockBit, toNat_index _ _ _ (by rw [ilockOff_toNat]; omega), ilockOff_toNat]

theorem exclBit_toNat :
    (x.exclBit c).toNat = x.rows.toNat * x.cols.toNat + x.rows.toNat * x.rows.toNat + c.toNat := by
  have := mul_le x.rows x.cols
  have := mul_le x.rows x.rows
  have := c.toNat_lt
  rw [exclBit, UInt32.toNat_add, exclOff_toNat, UInt8.toNat_toUInt32]
  omega

theorem poolBits_toNat (rows cols : UInt8) :
    (poolBits rows cols).toNat = rows.toNat * cols.toNat + rows.toNat * rows.toNat + cols.toNat := by
  have := mul_le rows cols
  have := mul_le rows rows
  have := cols.toNat_lt
  simp only [poolBits, UInt32.toNat_add, UInt32.toNat_mul, UInt8.toNat_toUInt32]
  omega

/-- A matrix is too small for the narrowing of the word count to 16 bits to cut anything. -/
theorem poolBits_le (rows cols : UInt8) : (poolBits rows cols).toNat ≤ 2097120 := by
  have hb := poolBits_toNat rows cols
  have := mul_le rows cols
  have := mul_le rows rows
  have := cols.toNat_lt
  omega

theorem poolBits_le_poolWords (rows cols : UInt8) : (poolBits rows cols).toNat ≤ 32 * (poolWords rows cols).toNat :=
  BitPool.le_wordsFor (poolBits_le rows cols)

theorem entry_lt {i n j m : Nat} (hi : i < n) (hj : j < m) : i * m + j < n * m :=
  calc i * m + j < i * m + m := Nat.add_lt_add_left hj _
    _ = (i + 1) * m := (Nat.succ_mul i m).symm
    _ ≤ n * m := Nat.mul_le_mul_right m hi

theorem entry_inj {i j i' j' m : Nat} (hj : j < m) (hj' : j' < m) (h : i * m + j = i' * m + j') : i = i' ∧ j = j' := by
  have hi : i = i' := by
    have h1 := congrArg (· / m) h
    simpa only [Nat.mul_comm _ m, Nat.mul_add_div (Nat.zero_lt_of_lt hj), Nat.div_eq_of_lt hj, Nat.div_eq_of_lt hj',
      Nat.add_zero] using h1
  subst hi
  exact ⟨rfl, by omega⟩

theorem nodeBit_lt (hr : r < x.rows) (hc : c < x.cols) : (x.nodeBit r c).toNat < x.rows.toNat * x.cols.toNat := by
  rw [nodeBit_toNat]
  exact entry_lt (UInt8.lt_iff_toNat_lt.mp hr) (UInt8.lt_iff_toNat_lt.mp hc)

theorem ilockBit_lt (ha : a < x.rows) (hb : b < x.rows) :
    (x.ilockBit a b).toNat < x.rows.toNat * x.cols.toNat + x.rows.toNat * x.rows.toNat := by
  have := entry_lt (UInt8.lt_iff_toNat_lt.mp ha) (UInt8.lt_iff_toNat_lt.mp hb)
  rw [ilockBit_toNat]
  omega

theorem exclBit_lt (hc : c < x.cols) : (x.exclBit c).toNat < (poolBits x.rows x.cols).toNat := by
  have := UInt8.lt_iff_toNat_lt.mp hc
  rw [exclBit_toNat, poolBits_toNat]
  omega

theorem nodeBit_inj (hc : c < x.cols) (hc' : c' < x.cols) : x.nodeBit r c = x.nodeBit r' c' ↔ r = r' ∧ c = c' := by
  refine ⟨fun h => ?_, fun ⟨hr, hc⟩ => by rw [hr, hc]⟩
  have h := congrArg UInt32.toNat h
  rw [nodeBit_toNat, nodeBit_toNat] at h
  obtain ⟨h1, h2⟩ := entry_inj (UInt8.lt_iff_toNat_lt.mp hc) (UInt8.lt_iff_toNat_lt.mp hc') h
  exact ⟨UInt8.toNat_inj.mp h1, UInt8.toNat_inj.mp h2⟩

theorem ilockBit_inj (hb : b < x.rows) (hb' : b' < x.rows) : x.ilockBit a b = x.ilockBit a' b' ↔ a = a' ∧ b = b' := by
  refine ⟨fun h => ?_, fun ⟨ha, hb⟩ => by rw [ha, hb]⟩
  have h := congrArg UInt32.toNat h
  rw [ilockBit_toNat, ilockBit_toNat] at h
  have h : a.toNat * x.rows.toNat + b.toNat = a'.toNat * x.rows.toNat + b'.toNat := by omega
  obtain ⟨h1, h2⟩ := entry_inj (UInt8.lt_iff_toNat_lt.mp hb) (UInt8.lt_iff_toNat_lt.mp hb') h
  exact ⟨UInt8.toNat_inj.mp h1, UInt8.toNat_inj.mp h2⟩

theorem exclBit_inj : x.exclBit c = x.exclBit c' ↔ c = c' := by
  refine ⟨fun h => ?_, fun h => by rw [h]⟩
  have h := congrArg UInt32.toNat h
  rw [exclBit_toNat, exclBit_toNat] at h
  exact UInt8.toNat_inj.mp (by omega)

theorem nodeBit_ne_ilockBit (hr : r < x.rows) (hc : c < x.cols) : x.nodeBit r c ≠ x.ilockBit a b := fun h => by
  have hlt := nodeBit_lt hr hc
  rw [h, ilockBit_toNat] at hlt
  omega

theorem nodeBit_ne_exclBit (hr : r < x.rows) (hc : c < x.cols) : x.nodeBit r c ≠ x.exclBit c' := fun h => by
  have hlt := nodeBit_lt hr hc
  rw [h, exclBit_toNat] at hlt
  omega

theorem ilockBit_ne_exclBit (ha : a < x.rows) (hb : b < x.rows) : x.ilockBit a b ≠ x.exclBit c := fun h => by
  have hlt := ilockBit_lt ha hb
  rw [h, exclBit_toNat] at hlt
  omega

/-! ### Reading and writing the tables -/

/-- The pool has the size of the matrix, and its words are there unless it is null. -/
structure WellFormed (x : XPoint) : Prop where
  bits : x.pool.nBits = poolBits x.rows x.cols
  words : x.pool.nWords = poolWords x.rows x.cols
  sound : x.pool.valid = true → x.pool.Sound

theorem node_mem (h : x.WellFormed) (hr : r < x.rows) (hc : c < x.cols) : (x.nodeBit r c).toNat < x.pool.nBits.toNat := by
  have := nodeBit_lt hr hc
  rw [h.bits, poolBits_toNat]
  omega

theorem ilock_mem (h : x.WellFormed) (ha : a < x.rows) (hb : b < x.rows) :
    (x.ilockBit a b).toNat < x.pool.nBits.toNat := by
  have := ilockBit_lt ha hb
  rw [h.bits, poolBits_toNat]
  omega

theorem excl_mem (h : x.WellFormed) (hc : c < x.cols) : (x.exclBit c).toNat < x.pool.nBits.toNat :=
  h.bits ▸ exclBit_lt hc

/-- The matrix holds the tables of `a`: the same dimensions, driver and pulses, and each bit of the three
    sections is the entry of its table. -/
structure Refines (x : XPoint) (a : TableXPoint) : Prop where
  rows : x.rows = a.rows
  cols : x.cols = a.cols
  type : x.type = a.type
  pdur : x.pdur = a.pdur
  drv : x.drv = a.drv
  pulses : x.pulses = a.pulses
  valid : x.pool.valid = a.valid
  conn : a.valid = true → ∀ r c, r < a.rows → c < a.cols → x.pool.get (x.nodeBit r c) = some (a.conn r c)
  lock : a.valid = true → ∀ r s, r < a.rows → s < a.rows → x.pool.get (x.ilockBit r s) = some (a.lock r s)
  excl : a.valid = true → ∀ c, c < a.cols → x.pool.get (x.exclBit c) = some (a.excl c)

theorem refines_tables (h : x.WellFormed) : Refines x x.tables where
  rows := rfl
  cols := rfl
  type := rfl
  pdur := rfl
  drv := rfl
  pulses := rfl
  valid := rfl
  conn hv r c hr hc := by
    obtain ⟨v, hg⟩ := (h.sound hv).get_isSome (node_mem h hr hc)
    have hr : r < x.rows := hr
    have hc : c < x.cols := hc
    simp [tables, hg, hr, hc]
  lock hv r s hr hs := by
    obtain ⟨v, hg⟩ := (h.sound hv).get_isSome (ilock_mem h hr hs)
    have hr : r < x.rows := hr
    have hs : s < x.rows := hs
    simp [tables, hg, hr, hs]
  excl hv c hc := by
    obtain ⟨v, hg⟩ := (h.sound hv).get_isSome (excl_mem h hc)
    have hc : c < x.cols := hc
    simp [tables, hg, hc]

/-- The entries outside the matrix are false. -/
structure Framed (a : TableXPoint) : Prop where
  conn : ∀ r c, a.conn r c = true → r < a.rows ∧ c < a.cols
  lock : ∀ r s, a.lock r s = true → r < a.rows ∧ s < a.rows
  excl : ∀ c, a.excl c = true → c < a.cols

theorem framed_tables (x : XPoint) : Framed x.tables where
  conn _ _ h := of_decide_eq_true (Bool.and_eq_true _ _ ▸ h).1
  lock _ _ h := of_decide_eq_true (Bool.and_eq_true _ _ ▸ h).1
  excl _ h := of_decide_eq_true (Bool.and_eq_true _ _ ▸ h).1

/-- An entry that is false outside the matrix is read off the pool. -/
theorem read_eq {P : Prop} [Decidable P] {u : Bool} {g : Option Bool} (hg : P → g = some u) (hu : u = true → P) :
    (decide P && g.getD false) = u := by
  by_cases hP : P
  · simp [hP, hg hP]
  · cases u
    · simp [hP]
    · exact absurd (hu rfl) hP

theorem Refines.tables_eq {a : TableXPoint} (h : Refines x a) (hv : a.valid = true) (hf : Framed a) : x.tables = a := by
  obtain ⟨rows, cols, type, pdur, drv, pulses, valid, hconn, hlock, hexcl⟩ := h
  cases a
  simp only at rows cols type pdur drv pulses valid hv
  subst rows cols type pdur drv pulses hv
  simp only [tables, TableXPoint.mk.injEq, valid, true_and, and_true]
  exact ⟨funext₂ fun r c => read_eq (fun hin => hconn rfl r c hin.1 hin.2) (hf.conn r c),
    funext₂ fun r s => read_eq (fun hin => hlock rfl r s hin.1 hin.2) (hf.lock r s),
    funext fun c => read_eq (hexcl rfl c) (hf.excl c)⟩

/-! ### Writing one entry -/

theorem set_bit (h : x.WellFormed) (hv : x.pool.valid = true) {n : UInt32} (hn : n.toNat < x.pool.nBits.toNat)
    (v : Bool) : ∃ pool, x.pool.set n v = some pool ∧ pool.valid = true ∧ WellFormed (x.setPool pool) ∧
      ∀ m, m.toNat < x.pool.nBits.toNat → pool.get m = if m = n then some v else x.pool.get m := by
  obtain ⟨q, hq, hs, hb, hw, hg⟩ := (h.sound hv).set hn v
  exact ⟨q, hq, hs.valid, ⟨hb.trans h.bits, hw.trans h.words, fun _ => hs⟩, hg⟩

/-- A write of one bit writes the entry of that bit, if the bits of all other entries are others. -/
theorem set_tables (h : x.WellFormed) (hv : x.pool.valid = true) {n : UInt32} (hn : n.toNat < x.pool.nBits.toNat)
    {conn lock : UInt8 → UInt8 → Bool} {excl : UInt8 → Bool}
    (hconn : ∀ r c, r < x.rows → c < x.cols → conn r c = if x.nodeBit r c = n then v else x.tables.conn r c)
    (hlock : ∀ a b, a < x.rows → b < x.rows → lock a b = if x.ilockBit a b = n then v else x.tables.lock a b)
    (hexcl : ∀ c, c < x.cols → excl c = if x.exclBit c = n then v else x.tables.excl c)
    (hf : Framed { x.tables with conn := conn, lock := lock, excl := excl }) :
    ∃ pool, x.pool.set n v = some pool ∧ WellFormed (x.setPool pool) ∧
      tables (x.setPool pool) = { x.tables with conn := conn, lock := lock, excl := excl } := by
  obtain ⟨q, hq, hqv, hwf, hg⟩ := set_bit h hv hn v
  have ref := refines_tables h
  refine ⟨q, hq, hwf, Refines.tables_eq ⟨rfl, rfl, rfl, rfl, rfl, rfl, hqv.trans hv.symm, ?_, ?_, ?_⟩ hv hf⟩
  · intro _ r c hr hc
    change q.get (x.nodeBit r c) = some (conn r c)
    rw [hg _ (node_mem h hr hc), ref.conn hv r c hr hc, hconn r c hr hc, apply_ite some]
  · intro _ a b ha hb
    change q.get (x.ilockBit a b) = some (lock a b)
    rw [hg _ (ilock_mem h ha hb), ref.lock hv a b ha hb, hlock a b ha hb, apply_ite some]
  · intro _ c hc
    change q.get (x.exclBit c) = some (excl c)
    rw [hg _ (excl_mem h hc), ref.excl hv c hc, hexcl c hc, apply_ite some]

theorem set_node (h : x.WellFormed) (hv : x.pool.valid = true) (hr : r < x.rows) (hc : c < x.cols) (v : Bool) :
    ∃ pool, x.pool.set (x.nodeBit r c) v = some pool ∧ WellFormed (x.setPool pool) ∧
      tables (x.setPool pool) = x.tables.setConn r c v := by
  have hf := framed_tables x
  refine set_tables h hv (node_mem h hr hc) (fun r' c' _ hc' => ?_) (fun _ _ _ _ => (if_neg ?_).symm)
    (fun _ _ => (if_neg ?_).symm) ⟨fun r' c' ht => ?_, hf.lock, hf.excl⟩
  · simp only [setEntry, nodeBit_inj hc' hc]
  · exact (nodeBit_ne_ilockBit hr hc).symm
  · exact (nodeBit_ne_exclBit hr hc).symm
  · simp only [setEntry] at ht
    split at ht
    · rename_i hrc
      exact ⟨hrc.1 ▸ hr, hrc.2 ▸ hc⟩
    · exact hf.conn r' c' ht

theorem set_ilock (h : x.WellFormed) (hv : x.pool.valid = true) (ha : a < x.rows) (hb : b < x.rows) :
    ∃ pool, x.pool.set (x.ilockBit a b) true = some pool ∧ WellFormed (x.setPool pool) ∧
      tables (x.setPool pool) = x.tables.setLock a b := by
  have hf := framed_tables x
  refine set_tables h hv (ilock_mem h ha hb) (fun _ _ hr hc => (if_neg ?_).symm) (fun a' b' _ hb' => ?_)
    (fun _ _ => (if_neg ?_).symm) ⟨hf.conn, fun a' b' ht => ?_, hf.excl⟩
  · exact nodeBit_ne_ilockBit hr hc
  · simp only [setEntry, ilockBit_inj hb' hb]
  · exact (ilockBit_ne_exclBit ha hb).symm
  · simp only [setEntry] at ht
    split at ht
    · rename_i hab
      exact ⟨hab.1 ▸ ha, hab.2 ▸ hb⟩
    · exact hf.lock a' b' ht

theorem set_excl (h : x.WellFormed) (hv : x.pool.valid = true) (hc : c < x.cols) :
    ∃ pool, x.pool.set (x.exclBit c) true = some pool ∧ WellFormed (x.setPool pool) ∧
      tables (x.setPool pool) = x.tables.setExcl c := by
  have hf := framed_tables x
  refine set_tables h hv (excl_mem h hc) (fun _ _ hr hc' => (if_neg ?_).symm) (fun _ _ ha hb => (if_neg ?_).symm)
    (fun c' _ => ?_) ⟨hf.conn, hf.lock, fun c' ht => ?_⟩
  · exact nodeBit_ne_exclBit hr hc'
  · exact ilockBit_ne_exclBit ha hb
  · simp only [exclBit_inj]
  · have ht : (if c' = c then true else x.tables.excl c') = true := ht
    split at ht
    · rename_i hcc
      exact hcc ▸ hc
    · exact hf.excl c' ht

end Crosspoint.XPoint
