import Crosspoint.Nested
import Crosspoint.Theorems.TCA9548A

/-! Writes through adapters over adapters. Each multiplexer has an address of its own, so a cached mask is the content
    of the control register on whatever segment the multiplexer sits; and what the recursion puts on the bus is one pass
    from the bus outwards, with the selects that the cache misses. -/

namespace Crosspoint
open Traces

namespace Adapter
variable {sites : UInt8 → Segment} {o bus : Adapter} {cache : ChannelCache} {net : Network} {call : I2CCall}
  {m k muxAddr channel data devAddr reg val : UInt8}

/-! ### An adapter over a bus of its own -/

theorem begin_over_wire {i : I2CInterface} :
    ((tca (.wire i) m channel).begin cache, []) = (TCA9548AInterface.new i m channel).begin cache := rfl

theorem selectIfNeeded_over_wire {i : I2CInterface} :
    selectIfNeeded (wire i).write m channel cache = (TCA9548AInterface.new i m channel).selectIfNeeded cache := rfl

theorem write_over_wire {i : I2CInterface} :
    (tca (.wire i) m channel).write cache (.writeRegister devAddr reg val) =
      (TCA9548AInterface.new i m channel).writeRegister cache devAddr reg val := by
  rw [write, selectIfNeeded_over_wire]
  rfl

/-! ### The multiplexers on the way -/

/-- A multiplexer on the way sits further in than the segment of the adapter. -/
theorem Fits.passes (h : o.Fits sites) (hm : o.mask m = some k) : isMux m = true ∧ (sites m).depth < o.segment.depth := by
  induction o with
  | wire i => cases hm
  | tca bus muxAddr channel ih =>
    obtain ⟨hbus, hmux, hsite⟩ := h
    rw [mask] at hm
    split at hm
    · rename_i heq
      subst heq
      exact ⟨hmux, hsite ▸ Nat.lt_succ_self _⟩
    · obtain ⟨hmux, hlt⟩ := ih hbus hm
      exact ⟨hmux, Nat.lt_succ_of_lt hlt⟩

/-- So no multiplexer is passed twice. -/
theorem Fits.mask_bus (h : (tca bus muxAddr channel).Fits sites) : bus.mask muxAddr = none := by
  cases hm : bus.mask muxAddr with
  | none => rfl
  | some k =>
    have hlt := (h.1.passes hm).2
    rw [h.2.2] at hlt
    exact absurd hlt (Nat.lt_irrefl _)

theorem mask_self : (tca bus muxAddr channel).mask muxAddr = some (channelMask channel) := if_pos rfl

theorem Fits.mask_of_bus (h : (tca bus muxAddr channel).Fits sites) (hm : bus.mask m = some k) :
    (tca bus muxAddr channel).mask m = some k := by
  have hne : muxAddr ≠ m := by
    rintro rfl
    rw [h.mask_bus] at hm
    cases hm
  exact (if_neg hne).trans hm

theorem get_begin (h : o.Fits sites) (hm : isMux m = true) :
    (o.begin cache).get (low3 m) = if o.mask m = none then cache.get (low3 m) else 0xFF := by
  induction o with
  | wire i => rfl
  | tca bus muxAddr channel ih =>
    obtain ⟨hbus, hmux, -⟩ := h
    rw [begin, Vector.get_put, mask]
    simp only [low3_inj hmux hm]
    by_cases heq : muxAddr = m
    · rw [if_pos heq, if_pos heq, if_neg (Option.some_ne_none _)]
    · rw [if_neg heq, if_neg heq]
      exact ih hbus

/-! ### One pass -/

/-- The cache when the channels on the way are selected. -/
def selected : Adapter → ChannelCache → ChannelCache
  | wire _, cache => cache
  | tca bus muxAddr channel, cache => (bus.selected cache).put (low3 muxAddr) (channelMask channel)

/-- What a write comes to at the bottom. -/
def forward : Adapter → I2CCall → BusWrite
  | wire i, call => i.write call
  | tca bus _ _, call => bus.forward call.byDefault

/-- The selects that the cache misses, from the bus outwards. -/
def selects : Adapter → ChannelCache → List BusWrite
  | wire _, _ => []
  | tca bus muxAddr channel, cache => bus.selects cache ++
    if cache.get (low3 muxAddr) ≠ channelMask channel then [bus.forward (.writeByte muxAddr (channelMask channel))] else []

/-- The cache has every channel on the way. -/
def Selected (o : Adapter) (cache : ChannelCache) : Prop := ∀ m k, o.mask m = some k → cache.get (low3 m) = k

theorem get_selected (h : o.Fits sites) (hm : isMux m = true) :
    (o.selected cache).get (low3 m) = (o.mask m).getD (cache.get (low3 m)) := by
  induction o with
  | wire i => rfl
  | tca bus muxAddr channel ih =>
    obtain ⟨hbus, hmux, -⟩ := h
    rw [selected, Vector.get_put, mask]
    simp only [low3_inj hmux hm]
    by_cases heq : muxAddr = m
    · rw [if_pos heq, if_pos heq]
      rfl
    · rw [if_neg heq, if_neg heq]
      exact ih hbus

theorem selected_selected (h : o.Fits sites) : o.Selected (o.selected cache) := fun m k hk => by
  rw [get_selected h (h.passes hk).1, hk]
  rfl

/-- When they are all selected, nothing is left to do. -/
theorem Selected.idle (hs : o.Selected cache) (h : o.Fits sites) : o.selected cache = cache ∧ o.selects cache = [] := by
  induction o with
  | wire i => exact ⟨rfl, rfl⟩
  | tca bus muxAddr channel ih =>
    obtain ⟨hcache, hsel⟩ := ih (fun m k hk => hs m k (h.mask_of_bus hk)) h.1
    have hhit := hs muxAddr _ mask_self
    constructor
    · rw [selected, hcache, ← hhit, Vector.put_get]
    · rw [selects, hsel, if_neg (not_not.mpr hhit)]
      rfl

theorem Fits.selected_bus (h : (tca bus muxAddr channel).Fits sites) :
    bus.Selected ((tca bus muxAddr channel).selected cache) := fun m k hk => by
  rw [get_selected h (h.1.passes hk).1, h.mask_of_bus hk]
  rfl

/-- A write selects what the cache misses on the way and goes out at the bottom. The recursion asks for the channels of the
    bus twice, before the select and before the write, and finds them on the second time. -/
theorem write_eq (h : o.Fits sites) : o.write cache call = (o.selected cache, o.selects cache ++ [o.forward call]) := by
  induction o generalizing cache call with
  | wire i => rfl
  | tca bus muxAddr channel ih =>
    by_cases hhit : cache.get (low3 muxAddr) = channelMask channel
    · have hsel : selectIfNeeded bus.write muxAddr channel cache = (cache, []) := if_neg (not_not.mpr hhit)
      have hget : (bus.selected cache).get (low3 muxAddr) = channelMask channel := by
        rw [get_selected h.1 h.2.1, h.mask_bus]
        exact hhit
      rw [write, hsel, selected, selects, if_neg (not_not.mpr hhit), ← hget, Vector.put_get, List.append_nil, forward]
      exact ih h.1
    · have hsel : selectIfNeeded bus.write muxAddr channel cache = ((tca bus muxAddr channel).selected cache,
          bus.selects cache ++ [bus.forward (.writeByte muxAddr (channelMask channel))]) := by
        rw [selectIfNeeded, if_pos hhit, ih h.1]
        rfl
      have hbus : bus.Selected ((tca bus muxAddr channel).selected cache) := h.selected_bus
      obtain ⟨hcache, hidle⟩ := hbus.idle h.1
      rw [write, hsel, selects, if_pos hhit, forward]
      change ((bus.write _ _).1, _ ++ (bus.write _ _).2) = _
      rw [ih h.1, hcache, hidle]
      rfl

theorem forward_writeRegister : o.forward (.writeRegister devAddr reg val) = o.root.writeRegister devAddr reg val := by
  induction o with
  | wire i => rfl
  | tca bus muxAddr channel ih => exact ih

/-- A select reaches the bus with its mask first, whatever follows. -/
theorem forward_writeByte : (o.forward (.writeByte m data)).addr = m ∧ (o.forward (.writeByte m data)).bus = o.root.bus ∧
    ∀ x, (o.forward (.writeByte m data)).bytes.headD x = data := by
  cases o with
  | wire i =>
    change (i.writeByte m data).addr = m ∧ (i.writeByte m data).bus = i.bus ∧
      ∀ x, (i.writeByte m data).bytes.headD x = data
    unfold I2CInterface.writeByte
    split
    · exact ⟨rfl, rfl, fun _ => rfl⟩
    · exact ⟨rfl, rfl, fun _ => rfl⟩
  | tca bus muxAddr channel =>
    rw [forward, I2CCall.byDefault, forward_writeRegister]
    exact ⟨rfl, rfl, fun _ => rfl⟩

theorem length_selects : (o.selects cache).length ≤ o.depth := by
  induction o with
  | wire i => exact Nat.le_refl 0
  | tca bus muxAddr channel ih =>
    rw [selects, List.length_append, depth]
    refine Nat.add_le_add ih ?_
    split
    · exact Nat.le_refl 1
    · exact Nat.zero_le 1

/-! ### The control registers -/

/-- A cached mask is the content of the control register, wherever the multiplexer sits. -/
def Follows (sites : UInt8 → Segment) (net : Network) (cache : ChannelCache) : Prop :=
  ∀ m, isMux m = true → cache.get (low3 m) ≠ 0xFF → net (sites m) m = cache.get (low3 m)

/-- The way is open when every register on it holds the mask of the adapter. -/
theorem reached_segment (h : o.Fits sites) (hnet : ∀ m k, o.mask m = some k → net (sites m) m = k) :
    o.segment.reached net o.root.bus = true := by
  induction o with
  | wire i => exact beq_self_eq_true i.bus
  | tca bus muxAddr channel ih =>
    have hbus := ih h.1 fun m k hk => hnet m k (h.mask_of_bus hk)
    have hmask : net bus.segment muxAddr = channelMask channel := h.2.2 ▸ hnet muxAddr _ mask_self
    have hbit : (net bus.segment muxAddr).toNat.testBit (low3 channel) = true :=
      hmask ▸ testBit_channelMask (b := bus.root) (m := muxAddr).mpr rfl
    change (bus.segment.reached net bus.root.bus && _) = true
    rw [hbus, hbit]
    rfl

end Adapter

section Network
variable {net : Network} {w : BusWrite} {ws vs : List BusWrite} {s : Segment} {m : UInt8}

theorem Network.replay_append : net.replay (ws ++ vs) = (net.replay ws).replay vs := List.foldl_append

theorem Network.take_other (h : isMux w.addr = false) : net.take w = net := by
  funext s m
  refine if_neg fun hc => ?_
  rw [← hc.2.1, hc.1] at h
  cases h

theorem Network.take_ne (h : m ≠ w.addr) : net.take w s m = net s m := if_neg fun hc => h hc.2.1

theorem Network.take_reached (h : isMux w.addr = true) (hs : s.reached net w.bus = true) :
    net.take w s w.addr = w.bytes.headD (net s w.addr) := if_pos ⟨h, rfl, hs⟩

end Network

namespace Adapter
variable {sites : UInt8 → Segment} {o : Adapter} {cache : ChannelCache} {net : Network} {m muxAddr data : UInt8}

/-- A select that goes out when the way to its multiplexer is open lands there, and nowhere else in use. -/
theorem take_select (hmux : isMux muxAddr = true) (hsite : sites muxAddr = o.segment)
    (hopen : o.segment.reached net o.root.bus = true) :
    net.take (o.forward (.writeByte muxAddr data)) (sites m) m = if muxAddr = m then data else net (sites m) m := by
  obtain ⟨haddr, hon, hhead⟩ := @forward_writeByte o muxAddr data
  generalize o.forward (.writeByte muxAddr data) = w at haddr hon hhead ⊢
  split
  · rename_i heq
    subst heq haddr
    rw [← hsite, ← hon] at hopen
    exact (Network.take_reached hmux hopen).trans (hhead _)
  · rename_i hne
    exact Network.take_ne fun hc => hne (haddr.symm.trans hc.symm)

/-- Whether selects are sent or left out, the registers on the way hold the masks of the adapter afterwards, and all others
    what they held. -/
theorem replay_selects (h : o.Fits sites) (hnet : Follows sites net cache) (hm : isMux m = true) :
    net.replay (o.selects cache) (sites m) m = (o.mask m).getD (net (sites m) m) := by
  induction o generalizing m with
  | wire i => rfl
  | tca bus muxAddr channel ih =>
    have ih {m : UInt8} (hm : isMux m = true) := ih h.1 hm
    have hself := h.mask_bus
    obtain ⟨hbus, hmux, hsite⟩ := h
    rw [selects, Network.replay_append, mask]
    by_cases hhit : cache.get (low3 muxAddr) = channelMask channel
    · rw [if_neg (not_not.mpr hhit)]
      by_cases heq : muxAddr = m
      · subst heq
        have hne : cache.get (low3 muxAddr) ≠ 0xFF := hhit ▸ channelMask_ne (b := bus.root) (m := muxAddr)
        rw [if_pos rfl]
        refine (ih hmux).trans ?_
        rw [hself, ← hhit]
        exact hnet muxAddr hmux hne
      · rw [if_neg heq]
        exact ih hm
    · rw [if_pos hhit]
      -- The select goes out behind those of the bus, which have opened the way to the multiplexer.
      have hopen : bus.segment.reached (net.replay (bus.selects cache)) bus.root.bus = true :=
        reached_segment hbus fun m k hk => by
          rw [ih (hbus.passes hk).1, hk]
          rfl
      change (net.replay (bus.selects cache)).take (bus.forward _) (sites m) m = _
      rw [take_select hmux hsite hopen]
      by_cases heq : muxAddr = m
      · rw [if_pos heq, if_pos heq]
        rfl
      · rw [if_neg heq, if_neg heq]
        exact ih hm

theorem selected_follows (h : o.Fits sites) (hnet : Follows sites net cache) :
    Follows sites (net.replay (o.selects cache)) (o.selected cache) := fun m hm hne => by
  rw [replay_selects h hnet hm, get_selected h hm]
  rw [get_selected h hm] at hne
  cases hmask : o.mask m with
  | none =>
    rw [hmask] at hne
    exact hnet m hm hne
  | some k => rfl

theorem begin_follows (h : o.Fits sites) (hnet : Follows sites net cache) :
    Follows sites net (o.begin cache) := fun m hm hne => by
  rw [get_begin h hm] at hne ⊢
  split at hne
  · rename_i hmask
    rw [if_pos hmask]
    exact hnet m hm hne
  · exact absurd rfl hne

end Adapter

/-! ### Runs -/

section Runs
variable {sites : UInt8 → Segment} {net : Network} {cache : ChannelCache} {log : List (AdapterCall × List BusWrite)}
  {call : AdapterCall} {ws : List BusWrite} {o : Adapter} {devAddr reg val : UInt8}

theorem lastThrough_begin {calls : List AdapterCall} {m : UInt8} :
    lastThrough (calls ++ [.begin o]) m = lastThrough calls m := by
  rw [lastThrough, List.filterMap_append]
  exact congrArg _ (List.append_nil _)

theorem lastThrough_write {calls : List AdapterCall} {m : UInt8} :
    lastThrough (calls ++ [.writeRegister o devAddr reg val]) m =
      if (o.mask m).isSome then some o else lastThrough calls m := by
  rw [lastThrough, List.filterMap_append]
  exact lastWhere_concat

theorem adapterTraffic_concat : adapterTraffic (log ++ [(call, ws)]) = adapterTraffic log ++ ws := flatMap_concat

/-- After the run so far and call `e.1`, every register holds the mask of the latest write through its multiplexer. -/
def Switched (sites : UInt8 → Segment) (net : Network) (pre : List (AdapterCall × List BusWrite))
    (e : AdapterCall × List BusWrite) : Prop :=
  ∀ o devAddr reg val, e.1 = .writeRegister o devAddr reg val →
    ∃ selects, e.2 = selects ++ [o.root.writeRegister devAddr reg val] ∧ ∀ m, isMux m = true →
      net.replay (adapterTraffic pre ++ selects) (sites m) m =
        ((lastThrough (pre.map Prod.fst ++ [e.1]) m).bind (Adapter.mask m)).getD (net (sites m) m)

/-- What the cache knows after a run so far: the registers, and which adapters find their channels on. -/
structure Routed (sites : UInt8 → Segment) (net : Network) (log : List (AdapterCall × List BusWrite))
    (cache : ChannelCache) : Prop where
  follows : Adapter.Follows sites (net.replay (adapterTraffic log)) cache
  selected : ∀ o : Adapter, o.Fits sites → o.LeftOn log → o.Selected cache
  delivered : Preceded (Delivered sites net) log
  registers : ∀ m, isMux m = true → net.replay (adapterTraffic log) (sites m) m =
    ((lastThrough (log.map Prod.fst) m).bind (Adapter.mask m)).getD (net (sites m) m)
  switched : Preceded (Switched sites net) log

theorem routed_init : Routed sites net [] .init where
  follows := fun _ _ h => absurd ChannelCache.get_init h
  selected := fun _ _ h => absurd h not_since_nil
  delivered := preceded_nil
  registers := fun _ _ => rfl
  switched := preceded_nil

theorem Routed.begin (h : Routed sites net log cache) (ho : o.Fits sites) :
    Routed sites net (log ++ [(.begin o, [])]) (o.begin cache) where
  follows := by
    rw [adapterTraffic_concat, List.append_nil]
    exact Adapter.begin_follows ho h.follows
  selected := fun o' ho' hleft => by
    rcases since_concat.mp hleft with ⟨_, _, _, he⟩ | ⟨hleft, hagrees⟩
    · exact nomatch he
    · intro m k hk
      have hmask : o.mask m = none := hagrees m (by rw [hk]; exact Option.some_ne_none k)
      rw [Adapter.get_begin ho (ho'.passes hk).1, if_pos hmask]
      exact h.selected o' ho' hleft m k hk
  delivered := preceded_concat.mpr ⟨h.delivered, fun _ _ _ _ he => nomatch he⟩
  registers := fun m hm => by
    rw [adapterTraffic_concat, List.append_nil, List.map_append, List.map_singleton, lastThrough_begin]
    exact h.registers m hm
  switched := preceded_concat.mpr ⟨h.switched, fun _ _ _ _ he => nomatch he⟩

/-- A write leaves an adapter its channels, when it is through that adapter or agrees with it. -/
theorem Routed.write_selected (h : Routed sites net log cache) (ho : o.Fits sites) {o' : Adapter} (ho' : o'.Fits sites)
    (hleft : o'.LeftOn (log ++ [(.writeRegister o devAddr reg val, ws)])) : o'.Selected (o.selected cache) := by
  rcases since_concat.mp hleft with ⟨_, _, _, he⟩ | ⟨hleft, hagrees⟩
  · obtain ⟨rfl, -⟩ := AdapterCall.writeRegister.inj he
    exact Adapter.selected_selected ho
  · intro m k hk
    rw [Adapter.get_selected ho (ho'.passes hk).1]
    cases hmask : o.mask m with
    | none => exact h.selected o' ho' hleft m k hk
    | some k' => exact hagrees m k k' hk hmask

theorem Routed.write (h : Routed sites net log cache) (ho : o.Fits sites) (hdev : isMux devAddr = false) :
    Routed sites net
      (log ++ [(.writeRegister o devAddr reg val, o.selects cache ++ [o.root.writeRegister devAddr reg val])])
      (o.selected cache) := by
  have hnet {m : UInt8} (hm : isMux m = true) : net.replay (adapterTraffic log ++ o.selects cache) (sites m) m =
      (o.mask m).getD (net.replay (adapterTraffic log) (sites m) m) := by
    rw [Network.replay_append]
    exact Adapter.replay_selects ho h.follows hm
  have hlast {m : UInt8} (hm : isMux m = true) : net.replay (adapterTraffic log ++ o.selects cache) (sites m) m =
      ((lastThrough (log.map Prod.fst ++ [.writeRegister o devAddr reg val]) m).bind (Adapter.mask m)).getD
        (net (sites m) m) := by
    rw [hnet hm, lastThrough_write]
    cases hmask : o.mask m with
    | none => exact h.registers m hm
    | some k =>
      rw [Option.isSome_some, if_pos rfl, Option.bind_some, hmask]
      rfl
  -- The device write itself changes no register.
  have htraffic : net.replay (adapterTraffic (log ++ [(.writeRegister o devAddr reg val,
      o.selects cache ++ [o.root.writeRegister devAddr reg val])])) =
        net.replay (adapterTraffic log ++ o.selects cache) := by
    rw [adapterTraffic_concat, ← List.append_assoc, Network.replay_append]
    exact Network.take_other hdev
  refine ⟨?_, fun o' ho' hleft => h.write_selected ho ho' hleft, preceded_concat.mpr ⟨h.delivered, ?_⟩, fun m hm => ?_,
    preceded_concat.mpr ⟨h.switched, ?_⟩⟩
  · rw [htraffic, Network.replay_append]
    exact Adapter.selected_follows ho h.follows
  · rintro o' devAddr' reg' val' he
    obtain ⟨rfl, rfl, rfl, rfl⟩ := AdapterCall.writeRegister.inj he
    refine ⟨_, rfl, Adapter.length_selects, fun hleft => ((h.selected o ho hleft).idle ho).2, ?_, fun m hm => hnet hm⟩
    refine Adapter.reached_segment ho fun m k hk => ?_
    rw [hnet (ho.passes hk).1, hk]
    rfl
  · rw [htraffic, List.map_append, List.map_singleton]
    exact hlast hm
  · rintro o' devAddr' reg' val' he
    obtain ⟨rfl, rfl, rfl, rfl⟩ := AdapterCall.writeRegister.inj he
    exact ⟨_, rfl, fun m hm => hlast hm⟩

theorem Routed.step (h : Routed sites net log cache) (hcall : call.Admissible sites) :
    Routed sites net (log ++ [(call, (call.step cache).2)]) (call.step cache).1 := by
  cases call with
  | begin o => exact h.begin hcall
  | writeRegister o devAddr reg val =>
    rw [AdapterCall.step, Adapter.write_eq hcall.1, Adapter.forward_writeRegister]
    exact h.write hcall.1 hcall.2

theorem run_routed {calls : List AdapterCall} (h : ∀ call ∈ calls, call.Admissible sites) :
    ∃ cache log, AdapterCall.run .init calls = some (cache, log) ∧ Routed sites net log cache :=
  Machine.run_rule (P := fun _ call => call.Admissible sites) (I := Routed sites net)
    (fun _ _ _ hI hcall => ⟨_, _, rfl, hI.step hcall⟩) routed_init (.of_forall fun call hc _ => h call hc)

end Runs

/-- Adapters over adapters to any depth, over any buses, with each multiplexer address in use at one place: whatever the
    control registers held before, and however the calls interleave, every write turns the multiplexers on its way, and
    no others, to its channels and then reaches its segment. It takes at most one select for each level, and none while
    the channels of the adapter are on since its own write. -/
theorem AdapterCall.run_delivers {sites : UInt8 → Segment} (net : Network) {calls : List AdapterCall}
    (h : ∀ call ∈ calls, call.Admissible sites) :
    ∃ cache log, AdapterCall.run .init calls = some (cache, log) ∧ Preceded (Delivered sites net) log := by
  obtain ⟨cache, log, hr, hI⟩ := run_routed h
  exact ⟨cache, log, hr, hI.delivered⟩

/-- A multiplexer behind channel 1 of another, with a write to a device beside it in between. -/
theorem AdapterCall.run_delivers_two_levels :
    let outer : Adapter := .tca (.wire ⟨0, true⟩) 0x70 1
    let inner : Adapter := .tca outer 0x71 2
    let calls : List AdapterCall := [.writeRegister inner 0x20 0 0, .writeRegister outer 0x20 0 0, .begin outer,
      .writeRegister inner 0x20 1 1]
    ∃ cache log, AdapterCall.run .init calls = some (cache, log) ∧
      Preceded (Delivered (fun m => if m = 0x71 then outer.segment else .root 0) fun _ _ => 0) log := by
  intro outer inner calls
  refine run_delivers _ ?_
  have houter : outer.Fits fun m => if m = 0x71 then outer.segment else .root 0 := ⟨trivial, rfl, rfl⟩
  have hinner : inner.Fits fun m => if m = 0x71 then outer.segment else .root 0 := ⟨houter, rfl, rfl⟩
  simp only [calls, List.forall_mem_cons, List.not_mem_nil, false_imp_iff, implies_true, and_true]
  exact ⟨⟨hinner, rfl⟩, ⟨houter, rfl⟩, houter, hinner, rfl⟩

/-! ### Who hears a write -/

theorem Adapter.testBit_mask {o : Adapter} {m : UInt8} {k : Fin 8} :
    ((o.mask m).getD 0).toNat.testBit k = true ↔ o.channel m = some k := by
  induction o with
  | wire i => simp [mask, channel]
  | tca bus muxAddr channel' ih =>
    rw [mask, channel]
    split
    · rw [Option.some_inj]
      exact (testBit_channelMask (b := bus.root) (m := muxAddr)).trans eq_comm
    · exact ih

/-- A segment is reached when the last use of every multiplexer on the way was for the channel towards it. -/
theorem Segment.reached_iff {sites : UInt8 → Segment} {net : Network} {last : UInt8 → Option Adapter} {b : Nat}
    {s : Segment} (h : s.Fits sites)
    (hnet : ∀ m, isMux m = true → net (sites m) m = ((last m).bind (Adapter.mask m)).getD 0) :
    s.reached net b = true ↔ s.bus = b ∧ ∀ hop ∈ s.hops, (last hop.1).bind (Adapter.channel hop.1) = some hop.2 := by
  induction s with
  | root b' => simp [reached, bus, hops]
  | behind s muxAddr channel ih =>
    obtain ⟨hs, hmux, hsite⟩ := h
    have hbit : (net s muxAddr).toNat.testBit channel = true ↔
        (last muxAddr).bind (Adapter.channel muxAddr) = some channel := by
      rw [← hsite, hnet muxAddr hmux]
      cases last muxAddr with
      | none => simp
      | some o => exact Adapter.testBit_mask
    rw [reached, Bool.and_eq_true, ih hs, hbit, hops, List.forall_mem_cons, bus, and_assoc]
    exact and_congr_right fun _ => and_comm

/-- From reset, a write through adapters over adapters is heard on the segment of its adapter, and besides on every other
    segment whose multiplexers were all left on the way to it. -/
theorem AdapterCall.run_heard {sites : UInt8 → Segment} {calls : List AdapterCall}
    (h : ∀ call ∈ calls, call.Admissible sites) :
    ∃ cache log, AdapterCall.run .init calls = some (cache, log) ∧ Preceded (Heard sites) log := by
  obtain ⟨cache, log, hr, hI⟩ := @run_routed sites (fun _ _ => 0) calls h
  refine ⟨cache, log, hr, hI.switched.imp fun pre e _ hsw o devAddr reg val he => ?_⟩
  obtain ⟨selects, hsel, hregs⟩ := hsw o devAddr reg val he
  exact ⟨selects, hsel, fun s hs => Segment.reached_iff hs hregs⟩

/-- An adapter on the bus, and one two levels deep behind another multiplexer. -/
theorem AdapterCall.run_heard_side_by_side :
    let near : Adapter := .tca (.wire ⟨0, false⟩) 0x70 0
    let far : Adapter := .tca (.tca (.wire ⟨0, false⟩) 0x71 0) 0x72 3
    let calls : List AdapterCall := [.writeRegister near 0x20 0x14 1, .writeRegister far 0x20 0x14 2]
    ∃ cache log, AdapterCall.run .init calls = some (cache, log) ∧
      Preceded (Heard fun m => if m = 0x72 then .behind (.root 0) 0x71 0 else .root 0) log := by
  intro near far calls
  refine run_heard ?_
  simp only [calls, List.forall_mem_cons, List.not_mem_nil, false_imp_iff, implies_true, and_true]
  exact ⟨⟨⟨trivial, rfl, rfl⟩, rfl⟩, ⟨⟨trivial, rfl, rfl⟩, rfl, rfl⟩, rfl⟩

end Crosspoint
