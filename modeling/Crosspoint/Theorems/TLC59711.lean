import Crosspoint.Packets

/-! The packet of a commit: the loops of `commitPhysicalUpdates` write the bytes of the chips at consecutive
    places, the last chip first. -/

namespace Crosspoint.TLC59711Driver
open Buffers Loops ShiftRegisters Traces

/-! ### The bytes of a chain -/

section Bytes
variable {n k ch : Nat} {value : Nat → UInt16}

theorem chipBytes_length : (chipBytes value k).length = 28 := rfl

/-- The bytes of `n` chips, the last chip first. -/
def chainBytes (value : Nat → UInt16) (n : Nat) : List UInt8 := (List.range n).reverse.flatMap (chipBytes value)

theorem chainBytes_queue : chainBytes value n = queue ((List.range n).map (chipBytes value)) := by
  rw [chainBytes, queue, ← List.map_reverse, List.flatMap_def]

theorem chainBytes_length : (chainBytes value n).length = n * 28 := by
  simp [chainBytes, chipBytes_length, List.length_flatMap]

theorem chainBytes_slice (hk : k < n) : ((chainBytes value n).drop ((n - 1 - k) * 28)).take 28 = chipBytes value k := by
  have hplace : n - 1 - k < ((List.range n).reverse.map (chipBytes value)).length := by simp; omega
  rw [chainBytes, List.flatMap_def, flatten_slice (by simp [chipBytes_length]) hplace, List.getElem_map,
    List.getElem_reverse, List.getElem_range]
  refine congrArg _ ?_
  rw [List.length_range]
  omega

theorem word_channelBytes {v : UInt16} : (v >>> 8).toUInt8.toUInt16 <<< 8 ||| v.toUInt8.toUInt16 = v := by
  have hv := v.toNat_lt
  have hlow : v.toNat % 2 ^ 8 < 2 ^ 8 := Nat.mod_lt _ (by decide)
  refine UInt16.toNat_inj.mp ?_
  simp only [UInt16.toNat_or, UInt16.toNat_shiftLeft, UInt8.toNat_toUInt16, UInt16.toNat_toUInt8, UInt16.toNat_shiftRight,
    UInt16.reduceToNat, Nat.reduceMod]
  rw [Nat.shiftLeft_eq, Nat.shiftRight_eq_div_pow, Nat.mod_eq_of_lt (by omega), ← Nat.shiftLeft_eq,
    ← Nat.shiftLeft_add_eq_or_of_lt hlow, Nat.shiftLeft_eq]
  omega

/-- The two bytes of channel `j` within the bytes of its chip. -/
theorem chipBytes_slice {j : Nat} (hj : j < 12) :
    ((chipBytes value k).drop (4 + (11 - j) * 2)).take 2 = channelBytes (value (12 * k + j)) := by
  have hplace : 11 - j < ((List.range 12).map fun i => channelBytes (value (12 * k + (11 - i)))).length := by simp; omega
  have hvalues : (chipBytes value k).drop 4 =
      ((List.range 12).map fun i => channelBytes (value (12 * k + (11 - i)))).flatten := by
    rw [chipBytes, List.flatMap_def]
    rfl
  rw [← List.drop_drop, hvalues, flatten_slice (by simp [channelBytes]) hplace, List.getElem_map, List.getElem_range]
  congr 2
  omega

theorem decode_chainBytes (hch : ch < n * 12) : decode n (chainBytes value n) ch = value ch := by
  have hk : ch / 12 < n := by omega
  have hj : ch % 12 < 12 := Nat.mod_lt _ (by decide)
  have hpair : ((chainBytes value n).drop ((n - 1 - ch / 12) * 28 + (4 + (11 - ch % 12) * 2))).take 2 =
      channelBytes (value ch) := by
    rw [← slice_slice (w := 28) (by omega), chainBytes_slice hk, chipBytes_slice hj, Nat.div_add_mod]
  rw [decode, hpair]
  exact word_channelBytes

theorem shows_chainBytes : Shows n value (chainBytes value n) where
  size := chainBytes_length
  layout _ hk := chainBytes_slice hk
  shifted regs hlen hwidth := by
    rw [chainBytes_queue]
    refine shiftAll_queue (List.ext_getElem (by simp [hlen]) fun i h₁ h₂ => ?_)
    rw [List.getElem_map, List.getElem_map, List.getElem_map, chipBytes_length, hwidth _ (List.getElem_mem _)]
  decoded _ hch := decode_chainBytes hch

end Bytes

/-! ### The loops of a commit -/

section Commit
variable {nChips : UInt8} {d : TLC59711Driver nChips} {pkt : Vector UInt8 (pktSz nChips).toNat} {off : UInt16} {k : Nat}

def value (d : TLC59711Driver nChips) (ch : Nat) : UInt16 := d.pwm (UInt16.ofNat ch)

theorem low_byte {v : UInt16} : (v &&& 0xFF).toUInt8 = v.toUInt8 := by
  refine UInt8.toNat_inj.mp ?_
  have h : v.toNat &&& 255 = v.toNat % 256 := Nat.and_two_pow_sub_one_eq_mod v.toNat 8
  simp only [UInt16.toNat_toUInt8, UInt16.toNat_and, UInt16.reduceToNat, h]
  omega

theorem putChannel_fill {base : UInt16} {i : UInt8} :
    d.putChannel off base pkt i = fill pkt (off.toNat + 4 + i.toNat * 2)
      (channelBytes (d.pwm (base + (11 - i.toUInt16)))) := by
  rw [channelBytes, fill_cons, putChannel, low_byte]
  refine congrArg _ (funext fun pkt => ?_)
  exact (Option.bind_fun_some _).symm

/-- The index of the channel that turn `i` puts for chip `k`, free of overflow. -/
theorem channel_index {i : Nat} (hk : k < 128) (hi : i < 12) :
    (Int8.ofNat k).toUInt8.toUInt16 * 12 + (11 - (UInt8.ofNat i).toUInt16) = UInt16.ofNat (12 * k + (11 - i)) := by
  refine UInt16.toNat_inj.mp ?_
  have hchip : (Int8.ofNat k).toUInt8.toNat = k := by
    change (BitVec.ofNat 8 k).toNat = k
    rw [BitVec.toNat_ofNat]
    omega
  have hturn : ((11 : UInt16) - (UInt8.ofNat i).toUInt16).toNat = 11 - i := by
    rw [UInt16.toNat_sub_of_le]
    · simp
      omega
    · rw [UInt16.le_iff_toNat_le]
      simp
      omega
  rw [UInt16.toNat_add, UInt16.toNat_mul, UInt8.toNat_toUInt16, hchip, hturn, UInt16.toNat_ofNat']
  simp
  omega

/-- The channel loop writes the channels of its chip, the highest first. -/
theorem channels_fill (hk : k < 128) :
    (below 12).foldlM (d.putChannel off ((Int8.ofNat k).toUInt8.toUInt16 * 12)) pkt =
      fill pkt (off.toNat + 4) ((List.range 12).flatMap fun i => channelBytes (d.value (12 * k + (11 - i)))) := by
  rw [← foldlM_range_fill (w := 2) fun _ _ => rfl, below, List.foldlM_map]
  refine foldlM_congr fun i hi pkt => ?_
  have hi : i < 12 := List.mem_range.mp hi
  have hturn : (UInt8.ofNat i).toNat = i := by
    rw [UInt8.toNat_ofNat']
    omega
  rw [putChannel_fill, channel_index hk hi, hturn]
  rfl

theorem putChip_fill (hk : k < 128) :
    d.putChip (off, pkt) (Int8.ofNat k) =
      (fill pkt off.toNat (chipBytes d.value k)).map fun pkt => (off + BYTES_PER_CHIP, pkt) := by
  simp only [putChip, channels_fill hk, chipBytes, List.cons_append, List.nil_append, fill_cons, Option.map_eq_bind,
    Option.bind_eq_bind, Option.bind_assoc]
  rfl

theorem chips_fill {ks : List Nat} (hks : ∀ k ∈ ks, k < 128) (hoff : off.toNat + ks.length * 28 < UInt16.size) :
    ((ks.map Int8.ofNat).foldlM d.putChip (off, pkt)).map Prod.snd =
      fill pkt off.toNat (ks.flatMap (chipBytes d.value)) := by
  induction ks generalizing off pkt with
  | nil => rfl
  | cons k ks ih =>
    rw [List.length_cons, UInt16.size] at hoff
    have hnext : (off + BYTES_PER_CHIP).toNat = off.toNat + 28 := by
      rw [UInt16.toNat_add]
      exact Nat.mod_eq_of_lt (show off.toNat + 28 < 2 ^ 16 by omega)
    rw [List.map_cons, List.foldlM_cons, putChip_fill (hks k List.mem_cons_self), List.flatMap_cons, fill_append,
      chipBytes_length]
    cases fill pkt off.toNat (chipBytes d.value k) with
    | none => rfl
    | some pkt =>
      rw [Option.bind_some, ← hnext]
      exact ih (fun k hk => hks k (List.mem_cons_of_mem _ hk)) (by rw [UInt16.size]; omega)

theorem toNat_pktSz : (pktSz nChips).toNat = nChips.toNat * 28 := by
  have hn := nChips.toNat_lt
  rw [pktSz, UInt16.toNat_mul, UInt8.toNat_toUInt16]
  exact Nat.mod_eq_of_lt (show nChips.toNat * 28 < 2 ^ 16 by omega)

theorem toNat_nCh : (nCh nChips).toNat = nChips.toNat * 12 := by
  have hn := nChips.toNat_lt
  rw [nCh, UInt16.toNat_mul, UInt8.toNat_toUInt16]
  exact Nat.mod_eq_of_lt (show nChips.toNat * 12 < 2 ^ 16 by omega)

/-- Up to 128 chips a commit assembles the bytes of all of them. -/
theorem commit_chain (h : nChips ≤ 128) :
    ∃ pkt, d.commitPhysicalUpdates = some { d with pkt := pkt } ∧ pkt.toList = chainBytes d.value nChips.toNat := by
  have hn : nChips.toNat ≤ 128 := UInt8.le_iff_toNat_le.mp h
  have hstart : downFrom (nChips.toInt8 - 1) = (List.range nChips.toNat).reverse.map Int8.ofNat := by
    rw [downFrom, toInt_count_pred, if_pos hn, Int.sub_add_cancel, Int.toNat_natCast]
  obtain ⟨pkt, hfill, hlist⟩ : ∃ pkt, fill d.pkt 0 (chainBytes d.value nChips.toNat) = some pkt ∧
      pkt.toList = chainBytes d.value nChips.toNat := fill_all (chainBytes_length.trans toNat_pktSz.symm)
  have hloop : (((List.range nChips.toNat).reverse.map Int8.ofNat).foldlM d.putChip (0, d.pkt)).map Prod.snd =
      some pkt := by
    rw [chips_fill (fun k hk => by have := List.mem_range.mp (List.mem_reverse.mp hk); omega)
      (by simp [UInt16.size]; omega)]
    exact hfill
  obtain ⟨s, hs, rfl⟩ := Option.map_eq_some_iff.mp hloop
  exact ⟨s.2, by rw [commitPhysicalUpdates, hstart, hs]; rfl, hlist⟩

/-- From 129 chips on the chip counter starts negative, and a commit writes nothing. -/
theorem commit_nothing (h : 128 < nChips) : d.commitPhysicalUpdates = some d := by
  have hn : 128 < nChips.toNat := UInt8.lt_iff_toNat_lt.mp h
  have hlt := nChips.toNat_lt
  have hstart : (nChips.toInt8 - 1).toInt < 0 := by
    rw [toInt_count_pred, if_neg (by omega)]
    omega
  rw [commitPhysicalUpdates, downFrom_neg hstart]
  rfl

end Commit

/-! ### Runs -/

section Runs
variable {nChips : UInt8} {d : TLC59711Driver nChips} {map : UInt8 → UInt8 → UInt16} {calls : List Call} {call : Call}
  {c v : UInt16} {ch : Nat}

theorem chainBytes_congr {n : Nat} {value value' : Nat → UInt16} (h : ∀ ch < n * 12, value ch = value' ch) :
    chainBytes value n = chainBytes value' n := by
  rw [chainBytes, chainBytes]
  refine List.flatMap_congr fun k hk => ?_
  rw [chipBytes, chipBytes]
  refine congrArg _ (List.flatMap_congr fun i hi => ?_)
  have hk := List.mem_range.mp (List.mem_reverse.mp hk)
  have hi := List.mem_range.mp hi
  rw [h _ (by omega)]

theorem pwm_setPWM {idx : UInt16} (h : idx < nCh nChips) : (d.setPWM c v).pwm idx = if c = idx then v else d.pwm idx := by
  unfold setPWM
  split
  · rw [pwm, pwm, dif_pos h, dif_pos h, Vector.getElem_set]
    simp only [UInt16.toNat_inj]
  · rename_i hc
    rw [if_neg fun heq : c = idx => hc (heq ▸ h)]

theorem value_setPWM (hch : ch < nChips.toNat * 12) :
    (d.setPWM c v).value ch = if c.toNat = ch then v else d.value ch := by
  have hn := nChips.toNat_lt
  have hidx : (UInt16.ofNat ch).toNat = ch := by
    rw [UInt16.toNat_ofNat']
    omega
  rw [value, value, pwm_setPWM (UInt16.lt_iff_toNat_lt.mpr (by rw [hidx, toNat_nCh]; exact hch))]
  simp only [← UInt16.toNat_inj, hidx]

@[simp] theorem map_setPWM : (d.setPWM c v).map = d.map := by
  unfold setPWM
  split <;> rfl

@[simp] theorem pkt_setPWM : (d.setPWM c v).pkt = d.pkt := by
  unfold setPWM
  split <;> rfl

theorem current_some (h : call.target map = some (c, v)) :
    current map (calls ++ [call]) ch = if c.toNat = ch then v else current map calls ch := by
  rw [current, List.filterMap_append, List.filterMap_cons_some h, List.filterMap_nil, lastWhere_concat]
  simp only [beq_iff_eq]
  split <;> rfl

theorem current_none (h : call.target map = none) : current map (calls ++ [call]) ch = current map calls ch := by
  rw [current, List.filterMap_append, List.filterMap_cons_none h, List.filterMap_nil, List.append_nil]
  rfl

/-- The driver after the calls `calls` on a new one. With 129 chips or more the packet is as it was made. -/
structure After (map : UInt8 → UInt8 → UInt16) (calls : List Call) (d : TLC59711Driver nChips) : Prop where
  mapper : d.map = map
  values : ∀ ch < nChips.toNat * 12, d.value ch = current map calls ch
  blank : 128 < nChips → d.pkt = Vector.replicate _ 0

theorem pwm_new : (new nChips map).pwm c = 0 := by
  rw [pwm]
  split
  · exact Vector.getElem_replicate ..
  · rfl

theorem after_new : After map [] (new nChips map) := ⟨rfl, fun _ _ => pwm_new, fun _ => rfl⟩

theorem After.setPWM (h : After map calls d) (hcall : call.target map = some (c, v)) :
    After map (calls ++ [call]) (d.setPWM c v) where
  mapper := map_setPWM.trans h.mapper
  values ch hch := by rw [value_setPWM hch, current_some hcall, h.values ch hch]
  blank hn := pkt_setPWM.trans (h.blank hn)

theorem After.same (h : After map calls d) (hcall : call.target map = none) : After map (calls ++ [call]) d where
  mapper := h.mapper
  values ch hch := by rw [current_none hcall, h.values ch hch]
  blank := h.blank

theorem step_commit {d' : TLC59711Driver nChips} (h : d.commitPhysicalUpdates = some d') :
    d.step (.driver .commitPhysicalUpdates) = some (d', ()) :=
  congrArg (Option.map fun d => (d, ())) h

theorem After.step (h : After map calls d) (call : Call) :
    ∃ d', d.step call = some (d', ()) ∧ After map (calls ++ [call]) d' := by
  cases call with
  | setPWM ch val => exact ⟨_, rfl, h.setPWM rfl⟩
  | driver call =>
    cases call with
    | begin => exact ⟨d, rfl, h.same rfl⟩
    | releaseNode r c => exact ⟨d, rfl, h.same rfl⟩
    | setNodeHardware r c state => exact ⟨_, rfl, h.setPWM (by rw [h.mapper]; rfl)⟩
    | setNodeLevel r c level => exact ⟨_, rfl, h.setPWM (by rw [h.mapper]; rfl)⟩
    | commitPhysicalUpdates =>
      rcases UInt8.lt_or_le 128 nChips with hn | hn
      · exact ⟨d, step_commit (commit_nothing hn), h.same rfl⟩
      · obtain ⟨pkt, hcommit, -⟩ := commit_chain (d := d) hn
        have hsame : After map (calls ++ [.driver .commitPhysicalUpdates]) { d with pkt := pkt } :=
          ⟨h.mapper, (h.same rfl).values, fun hn' => absurd hn (UInt8.not_le.mpr hn')⟩
        exact ⟨_, step_commit hcommit, hsame⟩

theorem run_after (nChips : UInt8) (map : UInt8 → UInt8 → UInt16) (calls : List Call) :
    ∃ d log, run (new nChips map) calls = some (d, log) ∧ After map calls d := by
  have hrun : ∃ d log, run (new nChips map) calls = some (d, log) ∧ After map (log.map Prod.fst) d :=
    Machine.run_rule (P := fun _ _ => True) (I := fun log d => After map (log.map Prod.fst) d)
      (fun log d call hd _ => by
        obtain ⟨d', hs, hd'⟩ := hd.step call
        exact ⟨d', (), hs, by rw [List.map_append]; exact hd'⟩)
      after_new (.of_forall fun _ _ _ => trivial)
  obtain ⟨d, log, hr, hd⟩ := hrun
  exact ⟨d, log, hr, Machine.run_inputs hr ▸ hd⟩

theorem decode_blank {n m : Nat} : decode n (Vector.replicate m (0 : UInt8)).toList ch = 0 := by
  rw [decode, Vector.toList_replicate, List.drop_replicate, List.take_replicate]
  split
  · rename_i high low hpair
    have hmem : ∀ b ∈ [high, low], b = 0 := fun b hb => List.eq_of_mem_replicate (hpair ▸ hb)
    rw [hmem high (by simp), hmem low (by simp)]
    rfl
  · rfl

theorem not_shows_blank {n m : Nat} {value : Nat → UInt16} (hn : 0 < n) :
    ¬Shows n value (Vector.replicate m (0 : UInt8)).toList := fun h => by
  have hlast := h.layout (n - 1) (by omega)
  rw [Nat.sub_self, Nat.zero_mul, List.drop_zero, chipBytes] at hlast
  have hmem : (0x96 : UInt8) ∈ (Vector.replicate m (0 : UInt8)).toList := List.mem_of_mem_take (i := 28) (hlast ▸ by simp)
  simp at hmem

/-- After any calls, the packet of a commit carries the latest channel values if and only if there are at most
    128 chips. -/
theorem run_commit_shows (nChips : UInt8) (map : UInt8 → UInt8 → UInt16) (calls : List Call) :
    ∃ d log, run (new nChips map) (calls ++ [.driver .commitPhysicalUpdates]) = some (d, log) ∧
      (Shows nChips.toNat (current map calls) d.pkt.toList ↔ nChips ≤ 128) := by
  obtain ⟨d, log, hr, hd⟩ := run_after nChips map calls
  rcases UInt8.lt_or_le 128 nChips with hn | hn
  · have hrun := Machine.run_append hr (Machine.run_single (step_commit (commit_nothing hn)))
    refine ⟨d, _, hrun, iff_of_false ?_ (UInt8.not_le.mpr hn)⟩
    rw [hd.blank hn]
    exact not_shows_blank (Nat.lt_trans (by decide) (UInt8.lt_iff_toNat_lt.mp hn))
  · obtain ⟨pkt, hcommit, hpkt⟩ := commit_chain (d := d) hn
    have hrun := Machine.run_append hr (Machine.run_single (step_commit hcommit))
    refine ⟨_, _, hrun, iff_of_true ?_ hn⟩
    rw [hpkt, chainBytes_congr hd.values]
    exact shows_chainBytes

/-- A chain of 129 chips: a commit leaves the packet all zero. -/
theorem commit_129_blank : ∃ d log, run (new 129 fun _ _ => 0) [.driver .commitPhysicalUpdates] = some (d, log) ∧
    ¬Shows 129 (current (fun _ _ => 0) []) d.pkt.toList :=
  ⟨_, _, Machine.run_single (step_commit (commit_nothing (by decide))),
    not_shows_blank (by decide)⟩

end Runs

end Crosspoint.TLC59711Driver
