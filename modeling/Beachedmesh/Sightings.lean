import Beachedmesh.Dedup

/-!
# What a run of a flooder shows

The packets of one kind that a flooder takes up for the first time, and those that it
hands out. While the cache forgets nothing, receiving a foreign packet adds its key to
the cache and rewrites the one slot of the pending table that stands under that key.
-/
namespace Beachedmesh

/-- A kind of packets that a relay keeps. -/
structure PacketKind where
  holds : Packet → Bool
  relayed : ∀ p q, p.relayed = some q → holds q = holds p

/-- The relay after one copy more, unless that makes enough. -/
def Pending.counted (threshold : ℕ) (p : Pending) : Option Pending :=
  if threshold ≤ p.heard + 1 then none else some { p with heard := p.heard + 1 }

theorem Pending.counted_eq_some {threshold : ℕ} {p q : Pending}
    (h : p.counted threshold = some q) :
    p.heard + 1 < threshold ∧ q = { p with heard := p.heard + 1 } := by
  unfold Pending.counted at h
  split_ifs at h with hle
  exact ⟨not_le.mp hle, (Option.some.inj h).symm⟩

theorem Pending.counted_eq_none {threshold : ℕ} {p : Pending}
    (h : p.counted threshold = none) : threshold ≤ p.heard + 1 := by
  unfold Pending.counted at h
  by_contra hlt
  rw [if_neg hlt] at h
  cases h

namespace SeenCache

/-- Entering the key pushes nothing out. -/
def Room (c : SeenCache) (key : Key) : Prop := key ∈ c.d.keys ∨ c.d.size < c.capacity

instance (c : SeenCache) (key : Key) : Decidable (c.Room key) :=
  inferInstanceAs (Decidable (_ ∨ _))

/-- Entering a key in a cache with room adds that key. -/
theorem mem_keys_add {c : SeenCache} {key : Key} {now : ℚ} (hle : c.d.size ≤ c.capacity)
    (hroom : c.Room key) (j : Key) : j ∈ (c.add key now).d.keys ↔ j ∈ c.d.keys ∨ j = key := by
  have hsize : ((c.d.insert key now).moveToEnd key).size ≤ c.capacity := by
    rw [OrderedDict.size_moveToEnd]
    rcases hroom with hk | hlt
    · rwa [← OrderedDict.length_keys, OrderedDict.keys_insert_of_mem now hk,
        OrderedDict.length_keys]
    · exact (OrderedDict.size_insert_le _ _ _).trans hlt
  rw [add, OrderedDict.evict_of_size_le hsize, OrderedDict.mem_keys_iff, OrderedDict.mem_keys_iff]
  by_cases hj : j = key <;> simp [hj]

theorem mem_keys_add_of_lt {c : SeenCache} {key : Key} {now : ℚ} (hlt : c.d.size < c.capacity)
    (j : Key) : j ∈ (c.add key now).d.keys ↔ j ∈ c.d.keys ∨ j = key :=
  mem_keys_add hlt.le (Or.inr hlt) j

end SeenCache

namespace Flooder

/-- The flooder after an operation. -/
def after (own : NodeId) (f : Flooder) : FloodOp → Flooder
  | .receive pkt rssi clk draw => (f.onReceive pkt rssi clk draw).2
  | .due now => (f.due now).2
  | .announce packetId now => f.insertSeen (own, packetId) now

/-- The packets of the kind that an operation takes up for the first time or hands out. -/
def sight (good : PacketKind) (f : Flooder) : FloodOp → List Packet
  | .receive pkt rssi clk draw =>
    if (f.onReceive pkt rssi clk draw).1.IsFirst ∧ good.holds pkt = true then [pkt] else []
  | .due now => (f.due now).1.filter good.holds
  | .announce _ _ => []

def sights (good : PacketKind) (own : NodeId) : Flooder → List FloodOp → List (List Packet)
  | _, [] => []
  | f, op :: ops => f.sight good op :: sights good own (f.after own op) ops

/-- The cache has room, and what it holds of a received key is within its lifetime. -/
def Fits (f : Flooder) : FloodOp → Prop
  | .receive pkt _ clk _ => f.seen.d.size < f.seen.capacity ∧
      ∀ ts, f.seen.d.get? pkt.key = some ts → clk.lookup - ts ≤ f.seen.ttl
  | .due _ => True
  | .announce _ _ => f.seen.d.size < f.seen.capacity

/-- Neither the capacity nor the lifetime of the cache is reached. -/
def FitsRun (own : NodeId) : Flooder → List FloodOp → Prop
  | _, [] => True
  | f, op :: ops => f.Fits op ∧ FitsRun own (f.after own op) ops

/-- By the operation the cache neither overflows nor meets a key past its lifetime. -/
def Retains (f : Flooder) : FloodOp → Prop
  | .receive pkt _ clk _ => f.ownId ≠ some pkt.src → f.seen.Room pkt.key ∧
      ∀ ts, f.seen.d.get? pkt.key = some ts → clk.lookup - ts ≤ f.seen.ttl
  | .due _ => True
  | .announce packetId _ => ∀ own, f.ownId = some own → f.seen.Room (own, packetId)

instance (f : Flooder) (op : FloodOp) : Decidable (f.Retains op) := by
  cases op with
  | receive pkt rssi clk draw =>
    exact inferInstanceAs (Decidable (f.ownId ≠ some pkt.src → f.seen.Room pkt.key ∧
      ∀ ts ∈ f.seen.d.get? pkt.key, clk.lookup - ts ≤ f.seen.ttl))
  | due now => exact inferInstanceAs (Decidable True)
  | announce packetId now =>
    exact inferInstanceAs (Decidable (∀ own ∈ f.ownId, f.seen.Room (own, packetId)))

theorem Fits.retains {f : Flooder} {op : FloodOp} (h : f.Fits op) : f.Retains op := by
  cases op with
  | receive pkt rssi clk draw => exact fun _ => ⟨Or.inr h.1, h.2⟩
  | due now => trivial
  | announce packetId now => exact fun _ _ => Or.inr h

instance (f : Flooder) (op : FloodOp) : Decidable (f.Fits op) := by
  cases op with
  | receive pkt rssi clk draw =>
    exact inferInstanceAs (Decidable (f.seen.d.size < f.seen.capacity ∧
      ∀ ts ∈ f.seen.d.get? pkt.key, clk.lookup - ts ≤ f.seen.ttl))
  | due now => exact inferInstanceAs (Decidable True)
  | announce packetId now => exact inferInstanceAs (Decidable (_ < _))

instance decidableFitsRun (own : NodeId) :
    ∀ (f : Flooder) (ops : List FloodOp), Decidable (FitsRun own f ops)
  | _, [] => inferInstanceAs (Decidable True)
  | f, op :: ops =>
    have := decidableFitsRun own (f.after own op) ops
    inferInstanceAs (Decidable (f.Fits op ∧ FitsRun own (f.after own op) ops))

theorem FitsRun.suffix {own : NodeId} {f : Flooder} {pre post : List FloodOp}
    (h : FitsRun own f (pre ++ post)) : FitsRun own (pre.foldl (after own) f) post := by
  induction pre generalizing f with
  | nil => exact h
  | cons op pre ih => exact ih h.2

theorem FitsRun.prefix {own : NodeId} {f : Flooder} {pre post : List FloodOp}
    (h : FitsRun own f (pre ++ post)) : FitsRun own f pre := by
  induction pre generalizing f with
  | nil => trivial
  | cons op pre ih => exact ⟨h.1, ih h.2⟩

/-! ### One operation on a flooder that forgets nothing -/

/-- What stands under the key of a foreign packet once it is received. -/
def slot (f : Flooder) (pkt : Packet) (sendAt : ℚ) : Option Pending :=
  match f.pending.get? pkt.key with
  | some p => p.counted f.threshold
  | none =>
    if pkt.key ∈ f.seen.d.keys then none
    else pkt.relayed.map fun relay => ⟨relay, sendAt, 0⟩

/-- What is pending is in the cache too, and has not been heard often enough, unless the
first copy is enough. -/
structure Tracked (own : NodeId) (capacity : ℕ) (ttl : ℚ) (f : Flooder) : Prop
    extends Sane own capacity ttl f where
  seen : ∀ k ∈ f.pending.keys, k ∈ f.seen.d.keys
  heard_lt : 0 < f.threshold → ∀ k p, f.pending.get? k = some p → p.heard < f.threshold

/-- What receiving a foreign packet does. -/
structure Took (f : Flooder) (pkt : Packet) (sendAt : ℚ) (v : Verdict) (f' : Flooder) :
    Prop where
  first : v.IsFirst ↔ pkt.key ∉ f.seen.d.keys
  pending : f'.pending = f.pending.put pkt.key (f.slot pkt sendAt)
  seen : ∀ j, j ∈ f'.seen.d.keys ↔ j ∈ f.seen.d.keys ∨ j = pkt.key

variable {own : NodeId} {capacity : ℕ} {ttl : ℚ} {f f' : Flooder}

theorem live_iff {pkt : Packet} {clk : ReceiveClock}
    (hage : ∀ ts, f.seen.d.get? pkt.key = some ts → clk.lookup - ts ≤ f.seen.ttl) :
    f.seen.Live pkt.key clk.lookup ↔ pkt.key ∈ f.seen.d.keys := by
  rw [OrderedDict.mem_keys_iff]
  constructor
  · rintro ⟨ts, hts, -⟩
    exact ⟨ts, hts⟩
  · rintro ⟨ts, hts⟩
    exact ⟨ts, hts, hage ts hts⟩

theorem Tracked.took_of_retains (ht : f.Tracked own capacity ttl) {pkt : Packet}
    {rssi : Option ℤ} {clk : ReceiveClock} {draw : ℚ}
    (hret : f.Retains (.receive pkt rssi clk draw)) (hsrc : pkt.src ≠ own) :
    Took f pkt (clk.schedule + relayDelay rssi draw) (f.onReceive pkt rssi clk draw).1
      (f.after own (.receive pkt rssi clk draw)) := by
  simp only [Flooder.after]
  rcases h : f.onReceive pkt rssi clk draw with ⟨v, f'⟩
  have hforeign : f.ownId ≠ some pkt.src := fun he =>
    hsrc (Option.some.inj (he.symm.trans ht.own_eq))
  obtain ⟨hroom, hage⟩ := hret hforeign
  have hlive := live_iff hage
  have hfirst : v.IsFirst ↔ pkt.key ∉ f.seen.d.keys := by
    rw [isFirst_iff h, Known, hlive]
    constructor
    · rintro ⟨-, hn⟩ hk
      exact hn (Or.inr hk)
    · intro hk
      exact ⟨hforeign, fun hor => hor.elim (fun hp => hk (ht.seen _ hp)) hk⟩
  -- a key already in the cache is not added
  have hold (hk : pkt.key ∈ f.seen.d.keys) (j : Key) :
      j ∈ f.seen.d.keys ↔ j ∈ f.seen.d.keys ∨ j = pkt.key :=
    ⟨Or.inl, fun hor => hor.elim id fun hj => hj ▸ hk⟩
  have hadd (hn : ¬ f.seen.Live pkt.key clk.lookup) (j : Key) :
      j ∈ ((f.seen.seen pkt.key clk.lookup).2.add pkt.key clk.insert).d.keys ↔
        j ∈ f.seen.d.keys ∨ j = pkt.key := by
    have hnone : f.seen.d.get? pkt.key = none :=
      OrderedDict.get?_eq_none_iff.mpr fun hk => hn (hlive.mpr hk)
    have hsame : (f.seen.seen pkt.key clk.lookup).2 = f.seen := by
      simp [SeenCache.seen, hnone]
    rw [hsame]
    exact SeenCache.mem_keys_add (ht.capacity_eq ▸ ht.size_le) hroom j
  have hpend {p : Pending} (hp : f.pending.get? pkt.key = some p) : pkt.key ∈ f.seen.d.keys :=
    ht.seen _ (OrderedDict.mem_keys_iff.mpr ⟨p, hp⟩)
  cases onReceive_cases h with
  | own hown => exact absurd hown hforeign
  | cancelled p _ hp hthr =>
    refine ⟨hfirst, ?_, hold (hpend hp)⟩
    simp only [slot, hp, Pending.counted, if_pos hthr, OrderedDict.put]
  | counted p _ hp hthr =>
    refine ⟨hfirst, ?_, hold (hpend hp)⟩
    simp only [slot, hp, Pending.counted, if_neg (not_le.mpr hthr), OrderedDict.put]
  | duplicate _ hp hl =>
    refine ⟨hfirst, ?_, fun j => ?_⟩
    · rw [slot, hp]
      dsimp only
      rw [if_pos (hlive.mp hl), ← hp, OrderedDict.put_get?]
    · rw [← hold (hlive.mp hl) j]
      exact OrderedDict.mem_keys_congr (OrderedDict.get?_moveToEnd _ _ _)
  | noHops _ hp hl hr =>
    refine ⟨hfirst, ?_, hadd hl⟩
    rw [slot, hp]
    dsimp only
    rw [if_neg fun hk => hl (hlive.mpr hk), hr, Option.map_none, ← hp, OrderedDict.put_get?]
  | scheduled relay _ hp hl hr =>
    refine ⟨hfirst, ?_, hadd hl⟩
    simp only [slot, hp, if_neg fun hk => hl (hlive.mpr hk), hr, Option.map_some,
      OrderedDict.put]

theorem Tracked.took (ht : f.Tracked own capacity ttl) {pkt : Packet} {rssi : Option ℤ}
    {clk : ReceiveClock} {draw : ℚ} (hfit : f.Fits (.receive pkt rssi clk draw))
    (hsrc : pkt.src ≠ own) :
    Took f pkt (clk.schedule + relayDelay rssi draw) (f.onReceive pkt rssi clk draw).1
      (f.after own (.receive pkt rssi clk draw)) :=
  ht.took_of_retains hfit.retains hsrc

/-- The node's own packet changes nothing, since none of its own is pending. -/
theorem Tracked.receive_own (ht : f.Tracked own capacity ttl) {pkt : Packet} (hsrc : pkt.src = own)
    (rssi : Option ℤ) (clk : ReceiveClock) (draw : ℚ) :
    f.onReceive pkt rssi clk draw = (.own, f) := by
  have hnot : pkt.key ∉ f.pending.keys := by
    intro hk
    obtain ⟨p, hp⟩ := OrderedDict.mem_keys_iff.mp hk
    exact ht.foreign _ p hp hsrc
  unfold onReceive
  dsimp only
  rw [if_pos (by rw [ht.own_eq, hsrc]), OrderedDict.erase_eq_self_iff.mpr hnot]

theorem slot_cases (good : PacketKind) {pkt : Packet} {sendAt : ℚ} {q : Pending}
    (h : f.slot pkt sendAt = some q) :
    (∃ p, f.pending.get? pkt.key = some p ∧ p.counted f.threshold = some q) ∨
      f.pending.get? pkt.key = none ∧ pkt.key ∉ f.seen.d.keys ∧ q.heard = 0 ∧
        good.holds q.packet = good.holds pkt := by
  unfold slot at h
  cases hp : f.pending.get? pkt.key with
  | some p =>
    rw [hp] at h
    exact Or.inl ⟨p, rfl, h⟩
  | none =>
    simp only [hp] at h
    split_ifs at h with hk
    obtain ⟨relay, hr, rfl⟩ := Option.map_eq_some_iff.mp h
    exact Or.inr ⟨rfl, hk, rfl, good.relayed _ _ hr⟩

theorem mem_keys_pending_put {d : OrderedDict Key Pending} {k j : Key} {s : Option Pending}
    (h : j ∈ (d.put k s).keys) : j = k ∨ j ∈ d.keys := by
  obtain ⟨p, hp⟩ := OrderedDict.mem_keys_iff.mp h
  rw [OrderedDict.get?_put] at hp
  split_ifs at hp with hj
  · exact Or.inl hj
  · exact Or.inr (OrderedDict.mem_keys_iff.mpr ⟨p, hp⟩)

theorem threshold_after (f : Flooder) (op : FloodOp) :
    (f.after own op).threshold = f.threshold := by
  cases op with
  | receive pkt rssi clk draw =>
    show (f.onReceive pkt rssi clk draw).2.threshold = f.threshold
    rcases hr : f.onReceive pkt rssi clk draw with ⟨v, f'⟩
    cases onReceive_cases hr <;> rfl
  | due now => rfl
  | announce packetId now => rfl

theorem Tracked.after_of_retains (ht : f.Tracked own capacity ttl) {op : FloodOp}
    (hret : f.Retains op) : (f.after own op).Tracked own capacity ttl := by
  have hsane : (f.after own op).Sane own capacity ttl := by
    have hstep : ∃ o, f.step own op = some (f.after own op, o) := by
      cases op <;> exact ⟨_, rfl⟩
    obtain ⟨o, ho⟩ := hstep
    exact ht.toSane.step ho
  cases op with
  | receive pkt rssi clk draw =>
    by_cases hsrc : pkt.src = own
    · have hsame : f.after own (.receive pkt rssi clk draw) = f :=
        congrArg Prod.snd (ht.receive_own hsrc rssi clk draw)
      rwa [hsame]
    · have hk := ht.took_of_retains hret hsrc
      refine { hsane with seen := fun j hj => ?_, heard_lt := fun hpos j p hp => ?_ }
      · rw [hk.pending] at hj
        refine (hk.seen j).mpr ?_
        rcases mem_keys_pending_put hj with he | hj
        · exact Or.inr he
        · exact Or.inl (ht.seen j hj)
      · rw [hk.pending, OrderedDict.get?_put] at hp
        rw [threshold_after] at hpos ⊢
        split_ifs at hp with hj
        · rcases slot_cases ⟨fun _ => true, fun _ _ _ => rfl⟩ hp with ⟨p', -, hc⟩ | ⟨-, -, h0, -⟩
          · obtain ⟨hlt, rfl⟩ := Pending.counted_eq_some hc
            exact hlt
          · rwa [h0]
        · exact ht.heard_lt hpos j p hp
  | due now =>
    have hsub {j : Key} {p : Pending} (hp : (f.due now).2.pending.get? j = some p) :
        f.pending.get? j = some p := by
      rw [get?_pending_due] at hp
      exact (Option.filter_eq_some_iff.mp hp).1
    refine { hsane with seen := fun j hj => ?_, heard_lt := fun hpos j p hp => ?_ }
    · obtain ⟨p, hp⟩ := OrderedDict.mem_keys_iff.mp hj
      exact ht.seen j (OrderedDict.mem_keys_iff.mpr ⟨p, hsub hp⟩)
    · exact ht.heard_lt hpos j p (hsub hp)
  | announce packetId now =>
    refine { hsane with seen := fun j hj => ?_, heard_lt := ht.heard_lt }
    exact (SeenCache.mem_keys_add (ht.capacity_eq ▸ ht.size_le) (hret own ht.own_eq) j).mpr
      (Or.inl (ht.seen j hj))

theorem threshold_foldl (f : Flooder) (ops : List FloodOp) :
    (ops.foldl (Flooder.after own) f).threshold = f.threshold := by
  induction ops generalizing f with
  | nil => rfl
  | cons op ops ih => exact (ih _).trans (threshold_after f op)

theorem Tracked.after (ht : f.Tracked own capacity ttl) {op : FloodOp} (hfit : f.Fits op) :
    (f.after own op).Tracked own capacity ttl := ht.after_of_retains hfit.retains

theorem Tracked.foldl (ht : f.Tracked own capacity ttl) {ops : List FloodOp}
    (hfit : FitsRun own f ops) : (ops.foldl (Flooder.after own) f).Tracked own capacity ttl := by
  induction ops generalizing f with
  | nil => exact ht
  | cons op ops ih => exact ih (ht.after hfit.1) hfit.2

theorem Tracked.after_own (ht : f.Tracked own capacity ttl) {pkt : Packet} (hsrc : pkt.src = own)
    (rssi : Option ℤ) (clk : ReceiveClock) (draw : ℚ) :
    f.after own (.receive pkt rssi clk draw) = f :=
  congrArg Prod.snd (ht.receive_own hsrc rssi clk draw)

theorem Tracked.sight_own (ht : f.Tracked own capacity ttl) {pkt : Packet} (hsrc : pkt.src = own)
    (rssi : Option ℤ) (clk : ReceiveClock) (draw : ℚ) (good : PacketKind) :
    f.sight good (.receive pkt rssi clk draw) = [] := by
  simp only [sight, ht.receive_own hsrc rssi clk draw]
  exact if_neg fun hv => by simp [Verdict.IsFirst] at hv

theorem Tracked.sight_receive (ht : f.Tracked own capacity ttl) {pkt : Packet} {rssi : Option ℤ}
    {clk : ReceiveClock} {draw : ℚ} (hfit : f.Fits (.receive pkt rssi clk draw))
    (hsrc : pkt.src ≠ own) (good : PacketKind) :
    f.sight good (.receive pkt rssi clk draw) =
      if pkt.key ∉ f.seen.d.keys ∧ good.holds pkt = true then [pkt] else [] := by
  simp only [sight, (ht.took hfit hsrc).first]

/-- An operation adds the key that it is about, unless that is a packet of the node's own. -/
theorem Tracked.seen_after_of_retains (ht : f.Tracked own capacity ttl) {op : FloodOp}
    (hret : f.Retains op) {k : Key} (hk : k.1 ≠ own) :
    k ∈ (f.after own op).seen.d.keys ↔ k ∈ f.seen.d.keys ∨ op.key? own = some k := by
  cases op with
  | receive pkt rssi clk draw =>
    simp only [FloodOp.key?, Option.some.injEq]
    by_cases hsrc : pkt.src = own
    · have hne : pkt.key ≠ k := fun he => hk (he ▸ hsrc)
      rw [ht.after_own hsrc]
      simp [hne]
    · rw [(ht.took_of_retains hret hsrc).seen k, eq_comm]
  | due now => simp [Flooder.after, due, FloodOp.key?]
  | announce packetId now =>
    rw [FloodOp.key?, Option.some.injEq, eq_comm]
    exact SeenCache.mem_keys_add (ht.capacity_eq ▸ ht.size_le) (hret own ht.own_eq) k

theorem Tracked.seen_after (ht : f.Tracked own capacity ttl) {op : FloodOp} (hfit : f.Fits op)
    {k : Key} (hk : k.1 ≠ own) :
    k ∈ (f.after own op).seen.d.keys ↔ k ∈ f.seen.d.keys ∨ op.key? own = some k :=
  ht.seen_after_of_retains hfit.retains hk

/-- The keys that one `due` hands out, each once. -/
theorem Sane.map_key_due (hs : f.Sane own capacity ttl) (now : ℚ) :
    (f.due now).1.map Packet.key = (f.pending.filter fun e => decide (e.2.sendAt ≤ now)).keys := by
  simp only [due, List.map_map, OrderedDict.keys, OrderedDict.filter]
  refine List.map_congr_left fun e he => ?_
  exact hs.key_eq e.1 e.2 (OrderedDict.get?_eq_some_iff.mpr (List.mem_of_mem_filter he))

theorem Sane.mem_map_key_due (hs : f.Sane own capacity ttl) {now : ℚ} {k : Key} :
    k ∈ (f.due now).1.map Packet.key ↔ ∃ p, f.pending.get? k = some p ∧ p.sendAt ≤ now := by
  rw [hs.map_key_due, OrderedDict.mem_keys_iff]
  simp only [OrderedDict.get?_filter, Option.filter_eq_some_iff, decide_eq_true_eq]

end Flooder

end Beachedmesh
