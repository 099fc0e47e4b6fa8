import Beachedmesh.Frame
import Beachedmesh.Support.OrderedDict
import Beachedmesh.Support.Machine

/-!
# Managed flood

Duplicate suppression by a bounded cache of packet identities, and counter
cancellation of pending relays. Every clock reading the code makes is an
argument: `on_receive` reads `time.monotonic()` when it looks a key up, when it
enters one, and when it schedules a relay.
-/
namespace Beachedmesh

def relayThreshold : ℕ := 3

/-- `(rssi_at_or_above, base_ms, jitter_ms)`, weakest first. -/
def delayBands : List (Option ℤ × ℚ × ℚ) :=
  [(some (-95), 10, 5), (some (-80), 20, 15), (some (-70), 50, 20),
    (some (-60), 90, 17), (some (-50), 125, 30), (none, 200, 30)]

def cwMin : ℚ := 10 / 1000
def cwMax : ℚ := 230 / 1000

/-- Seconds to wait before relaying; `draw` in `[0, 1)` is what
`random.uniform(a, b)` scales to its interval. -/
def relayDelay (rssi : Option ℤ) (draw : ℚ) : ℚ :=
  match rssi with
  | none => cwMin + (cwMax - cwMin) * draw
  | some r =>
    match delayBands.find? (fun band => band.1.all (fun threshold => decide (r ≤ threshold))) with
    | some (_, base, jitter) => (base + jitter * draw) / 1000
    | none => cwMax

/-! ### The seen cache -/

structure SeenCache where
  capacity : ℕ
  ttl : ℚ
  d : OrderedDict Key ℚ
  deriving DecidableEq

namespace SeenCache

def new (capacity : ℕ) (ttl : ℚ) : SeenCache := ⟨capacity, ttl, OrderedDict.empty⟩

/-- `SeenCache()`. -/
def default : SeenCache := new 4096 600

/-- A hit moves the key to the end without refreshing its time; an expired hit
deletes it. -/
def seen (c : SeenCache) (key : Key) (now : ℚ) : Bool × SeenCache :=
  match c.d.get? key with
  | none => (false, c)
  | some ts =>
    if now - ts > c.ttl then (false, { c with d := c.d.erase key })
    else (true, { c with d := c.d.moveToEnd key })

def add (c : SeenCache) (key : Key) (now : ℚ) : SeenCache :=
  { c with d := ((c.d.insert key now).moveToEnd key).evict c.capacity }

/-- The key is in the cache and its time is within the lifetime. -/
def Live (c : SeenCache) (key : Key) (now : ℚ) : Prop :=
  ∃ ts, c.d.get? key = some ts ∧ now - ts ≤ c.ttl

theorem seen_of_live {c : SeenCache} {key : Key} {now : ℚ} (h : c.Live key now) :
    c.seen key now = (true, { c with d := c.d.moveToEnd key }) := by
  obtain ⟨ts, hts, hle⟩ := h
  simp [seen, hts, not_lt.mpr hle]

theorem seen_of_not_live {c : SeenCache} {key : Key} {now : ℚ} (h : ¬ c.Live key now) :
    (c.seen key now).1 = false ∧
      ((c.seen key now).2 = c ∨ (c.seen key now).2 = { c with d := c.d.erase key }) := by
  rw [seen]
  cases hts : c.d.get? key with
  | none => exact ⟨rfl, Or.inl rfl⟩
  | some ts =>
    have hgt : now - ts > c.ttl := by
      by_contra hle
      exact h ⟨ts, hts, not_lt.mp hle⟩
    simp [hgt]

@[simp] theorem capacity_seen (c : SeenCache) (key : Key) (now : ℚ) :
    (c.seen key now).2.capacity = c.capacity := by
  rw [seen]
  cases c.d.get? key with
  | none => rfl
  | some ts => dsimp only; split_ifs <;> rfl

@[simp] theorem ttl_seen (c : SeenCache) (key : Key) (now : ℚ) :
    (c.seen key now).2.ttl = c.ttl := by
  rw [seen]
  cases c.d.get? key with
  | none => rfl
  | some ts => dsimp only; split_ifs <;> rfl

/-- Looking one key up leaves the entries of the others. -/
theorem get?_seen_of_ne (c : SeenCache) {key j : Key} (now : ℚ) (h : j ≠ key) :
    (c.seen key now).2.d.get? j = c.d.get? j := by
  rw [seen]
  cases c.d.get? key with
  | none => rfl
  | some ts => dsimp only; split_ifs <;> simp [h]

/-- A time the cache holds after a look-up was there before it. -/
theorem get?_of_get?_seen {c : SeenCache} {key j : Key} {now ts : ℚ}
    (h : (c.seen key now).2.d.get? j = some ts) : c.d.get? j = some ts := by
  by_cases hj : j = key
  · subst hj
    rw [seen] at h
    cases hts : c.d.get? j with
    | none => simp [hts] at h
    | some t => simp only [hts] at h; split_ifs at h <;> simp_all
  · rwa [get?_seen_of_ne c now hj] at h

theorem get?_of_get?_add {c : SeenCache} {key j : Key} {now ts : ℚ}
    (h : (c.add key now).d.get? j = some ts) :
    j = key ∧ ts = now ∨ c.d.get? j = some ts := by
  have h' := OrderedDict.get?_of_get?_evict h
  rw [OrderedDict.get?_moveToEnd, OrderedDict.get?_insert] at h'
  split_ifs at h' with hj
  · exact Or.inl ⟨hj, (Option.some.inj h').symm⟩
  · exact Or.inr h'

end SeenCache

/-! ### The flooder -/

/-- A relay waiting on its timer. -/
structure Pending where
  packet : Packet
  sendAt : ℚ
  heard : ℕ
  deriving DecidableEq

structure FloodStats where
  relayed : ℕ
  cancelled : ℕ
  duplicates : ℕ
  expiredHops : ℕ
  deriving DecidableEq

structure Flooder where
  ownId : Option NodeId
  threshold : ℕ
  seen : SeenCache
  pending : OrderedDict Key Pending
  stats : FloodStats
  deriving DecidableEq

inductive Verdict where
  | own
  | duplicate
  | cancelled
  | scheduled
  | noHops
  deriving DecidableEq

/-- A packet the flooder takes up for the first time. -/
def Verdict.IsFirst (v : Verdict) : Prop := v = .scheduled ∨ v = .noHops

instance (v : Verdict) : Decidable v.IsFirst := inferInstanceAs (Decidable (_ ∨ _))

/-- The three readings of `time.monotonic()` in one `on_receive`. -/
structure ReceiveClock where
  lookup : ℚ
  insert : ℚ
  schedule : ℚ
  deriving DecidableEq

namespace Flooder

/-- `Flooder(own_id, threshold, seen)`. The code writes `seen or SeenCache()`, and
an empty cache is falsy, so an empty one that is passed in is replaced. -/
def new (ownId : Option NodeId) (threshold : ℕ) (seen : Option SeenCache) : Flooder where
  ownId := ownId
  threshold := threshold
  seen := match seen with
    | some c => if c.d.size = 0 then SeenCache.default else c
    | none => SeenCache.default
  pending := OrderedDict.empty
  stats := ⟨0, 0, 0, 0⟩

def onReceive (f : Flooder) (pkt : Packet) (rssi : Option ℤ) (clk : ReceiveClock) (draw : ℚ) :
    Verdict × Flooder :=
  let key := pkt.key
  if f.ownId = some pkt.src then
    (.own, { f with pending := f.pending.erase key })
  else
    match f.pending.get? key with
    | some p =>
      -- another node is doing the job for us: count it, and drop ours once enough have
      let p' := { p with heard := p.heard + 1 }
      if p'.heard ≥ f.threshold then
        (.cancelled, { f with
          pending := f.pending.erase key
          stats := { f.stats with cancelled := f.stats.cancelled + 1 } })
      else (.duplicate, { f with pending := f.pending.insert key p' })
    | none =>
      let looked := f.seen.seen key clk.lookup
      if looked.1 then
        (.duplicate, { f with
          seen := looked.2
          stats := { f.stats with duplicates := f.stats.duplicates + 1 } })
      else
        let cache := looked.2.add key clk.insert
        match pkt.relayed with
        | none =>
          (.noHops, { f with
            seen := cache
            stats := { f.stats with expiredHops := f.stats.expiredHops + 1 } })
        | some relay =>
          (.scheduled, { f with
            seen := cache
            pending := f.pending.insert key ⟨relay, clk.schedule + relayDelay rssi draw, 0⟩ })

/-- Relays whose timer has expired, in the order of the pending table. -/
def due (f : Flooder) (now : ℚ) : List Packet × Flooder :=
  let ready := f.pending.entries.filter (fun e => decide (e.2.sendAt ≤ now))
  (ready.map (fun e => e.2.packet),
    { f with
      pending := f.pending.filter (fun e => decide (¬ e.2.sendAt ≤ now))
      stats := { f.stats with relayed := f.stats.relayed + ready.length } })

/-- When `due` next has work, for sizing a timeout. -/
def nextDeadline (f : Flooder) : Option ℚ :=
  (f.pending.entries.map (fun e => e.2.sendAt)).min?

/-- The part of `send_announce` that the flooder sees. -/
def insertSeen (f : Flooder) (key : Key) (now : ℚ) : Flooder :=
  { f with seen := f.seen.add key now }

/-- A copy of something the node already has. -/
def Known (f : Flooder) (key : Key) (now : ℚ) : Prop :=
  key ∈ f.pending.keys ∨ f.seen.Live key now

/-- The exits of `on_receive`, one for each way a packet can be classified. -/
inductive Received (f : Flooder) (pkt : Packet) (clk : ReceiveClock) (sendAt : ℚ) :
    Verdict → Flooder → Prop
  | own : f.ownId = some pkt.src →
      Received f pkt clk sendAt .own { f with pending := f.pending.erase pkt.key }
  | cancelled (p : Pending) : f.ownId ≠ some pkt.src → f.pending.get? pkt.key = some p →
      f.threshold ≤ p.heard + 1 →
      Received f pkt clk sendAt .cancelled { f with
        pending := f.pending.erase pkt.key
        stats := { f.stats with cancelled := f.stats.cancelled + 1 } }
  | counted (p : Pending) : f.ownId ≠ some pkt.src → f.pending.get? pkt.key = some p →
      p.heard + 1 < f.threshold →
      Received f pkt clk sendAt .duplicate { f with
        pending := f.pending.insert pkt.key { p with heard := p.heard + 1 } }
  | duplicate : f.ownId ≠ some pkt.src → f.pending.get? pkt.key = none →
      f.seen.Live pkt.key clk.lookup →
      Received f pkt clk sendAt .duplicate { f with
        seen := { f.seen with d := f.seen.d.moveToEnd pkt.key }
        stats := { f.stats with duplicates := f.stats.duplicates + 1 } }
  | noHops : f.ownId ≠ some pkt.src → f.pending.get? pkt.key = none →
      ¬ f.seen.Live pkt.key clk.lookup → pkt.relayed = none →
      Received f pkt clk sendAt .noHops { f with
        seen := (f.seen.seen pkt.key clk.lookup).2.add pkt.key clk.insert
        stats := { f.stats with expiredHops := f.stats.expiredHops + 1 } }
  | scheduled (relay : Packet) : f.ownId ≠ some pkt.src → f.pending.get? pkt.key = none →
      ¬ f.seen.Live pkt.key clk.lookup → pkt.relayed = some relay →
      Received f pkt clk sendAt .scheduled { f with
        seen := (f.seen.seen pkt.key clk.lookup).2.add pkt.key clk.insert
        pending := f.pending.insert pkt.key ⟨relay, sendAt, 0⟩ }

/-- Everything `on_receive` can do; later proofs split on this and not on its body. -/
theorem onReceive_cases {f f' : Flooder} {pkt : Packet} {rssi : Option ℤ} {clk : ReceiveClock}
    {draw : ℚ} {v : Verdict} (h : f.onReceive pkt rssi clk draw = (v, f')) :
    Received f pkt clk (clk.schedule + relayDelay rssi draw) v f' := by
  simp only [onReceive] at h
  by_cases hown : f.ownId = some pkt.src
  · rw [if_pos hown] at h
    obtain ⟨rfl, rfl⟩ := Prod.mk.inj h
    exact .own hown
  rw [if_neg hown] at h
  cases hp : f.pending.get? pkt.key with
  | some p =>
    simp only [hp] at h
    split_ifs at h with hthr
    · obtain ⟨rfl, rfl⟩ := Prod.mk.inj h
      exact .cancelled p hown hp hthr
    · obtain ⟨rfl, rfl⟩ := Prod.mk.inj h
      exact .counted p hown hp (not_le.mp hthr)
  | none =>
    simp only [hp] at h
    by_cases hlive : f.seen.Live pkt.key clk.lookup
    · simp only [SeenCache.seen_of_live hlive, ↓reduceIte] at h
      obtain ⟨rfl, rfl⟩ := Prod.mk.inj h
      exact .duplicate hown hp hlive
    · simp only [(SeenCache.seen_of_not_live hlive).1, Bool.false_eq_true, ↓reduceIte] at h
      cases hr : pkt.relayed with
      | none =>
        simp only [hr] at h
        obtain ⟨rfl, rfl⟩ := Prod.mk.inj h
        exact .noHops hown hp hlive hr
      | some relay =>
        simp only [hr] at h
        obtain ⟨rfl, rfl⟩ := Prod.mk.inj h
        exact .scheduled relay hown hp hlive hr

/-- The first-time verdicts are exactly those of a foreign packet not yet known. -/
theorem isFirst_iff {f f' : Flooder} {pkt : Packet} {rssi : Option ℤ} {clk : ReceiveClock}
    {draw : ℚ} {v : Verdict} (h : f.onReceive pkt rssi clk draw = (v, f')) :
    v.IsFirst ↔ f.ownId ≠ some pkt.src ∧ ¬ f.Known pkt.key clk.lookup := by
  have hnone {k : Key} : f.pending.get? k = none ↔ k ∉ f.pending.keys :=
    OrderedDict.get?_eq_none_iff
  have hsome {k : Key} {p : Pending} (hp : f.pending.get? k = some p) : k ∈ f.pending.keys :=
    OrderedDict.mem_keys_iff.mpr ⟨p, hp⟩
  cases onReceive_cases h with
  | own hown => simp [Verdict.IsFirst, hown]
  | cancelled p hown hp hthr => simp [Verdict.IsFirst, Known, hsome hp]
  | counted p hown hp hthr => simp [Verdict.IsFirst, Known, hsome hp]
  | duplicate hown hp hlive => simp [Verdict.IsFirst, Known, hlive]
  | noHops hown hp hlive hr => simp [Verdict.IsFirst, Known, hown, hlive, hnone.mp hp]
  | scheduled relay hown hp hlive hr => simp [Verdict.IsFirst, Known, hown, hlive, hnone.mp hp]

theorem own_iff {f f' : Flooder} {pkt : Packet} {rssi : Option ℤ} {clk : ReceiveClock}
    {draw : ℚ} {v : Verdict} (h : f.onReceive pkt rssi clk draw = (v, f')) :
    v = .own ↔ f.ownId = some pkt.src := by
  cases onReceive_cases h <;> simp_all

theorem ownId_onReceive {f f' : Flooder} {pkt : Packet} {rssi : Option ℤ} {clk : ReceiveClock}
    {draw : ℚ} {v : Verdict} (h : f.onReceive pkt rssi clk draw = (v, f')) :
    f'.ownId = f.ownId := by
  cases onReceive_cases h <;> rfl

/-- After a reception, a relay was pending before, with the same packet and time, or is that
of a packet just taken up. -/
theorem entry_onReceive {f f' : Flooder} {pkt : Packet} {rssi : Option ℤ} {clk : ReceiveClock}
    {draw : ℚ} {v : Verdict} (h : f.onReceive pkt rssi clk draw = (v, f')) {key : Key} {p : Pending}
    (hp : f'.pending.get? key = some p) :
    (∃ q, f.pending.get? key = some q ∧ p.packet = q.packet ∧ p.sendAt = q.sendAt) ∨
      (key = pkt.key ∧ f.pending.get? key = none ∧ v.IsFirst ∧ pkt.relayed = some p.packet) ∧
        p.sendAt = clk.schedule + relayDelay rssi draw := by
  cases onReceive_cases h with
  | own _ =>
    rw [OrderedDict.get?_erase] at hp
    split_ifs at hp
    exact Or.inl ⟨p, hp, rfl, rfl⟩
  | cancelled q _ _ _ =>
    rw [OrderedDict.get?_erase] at hp
    split_ifs at hp
    exact Or.inl ⟨p, hp, rfl, rfl⟩
  | counted q _ hq _ =>
    rw [OrderedDict.get?_insert] at hp
    split_ifs at hp with hkey
    · obtain rfl := Option.some.inj hp
      exact Or.inl ⟨q, hkey ▸ hq, rfl, rfl⟩
    · exact Or.inl ⟨p, hp, rfl, rfl⟩
  | duplicate _ _ _ => exact Or.inl ⟨p, hp, rfl, rfl⟩
  | noHops _ _ _ _ => exact Or.inl ⟨p, hp, rfl, rfl⟩
  | scheduled relay _ hnone _ hrelay =>
    rw [OrderedDict.get?_insert] at hp
    split_ifs at hp with hkey
    · obtain rfl := Option.some.inj hp
      exact Or.inr ⟨⟨hkey, hkey ▸ hnone, Or.inl rfl, hrelay⟩, rfl⟩
    · exact Or.inl ⟨p, hp, rfl, rfl⟩

theorem pending_onReceive {f f' : Flooder} {pkt : Packet} {rssi : Option ℤ} {clk : ReceiveClock}
    {draw : ℚ} {v : Verdict} (h : f.onReceive pkt rssi clk draw = (v, f')) {key : Key} {p : Pending}
    (hp : f'.pending.get? key = some p) :
    (∃ q, f.pending.get? key = some q ∧ p.packet = q.packet) ∨
      key = pkt.key ∧ f.pending.get? key = none ∧ v.IsFirst ∧ pkt.relayed = some p.packet :=
  (entry_onReceive h hp).imp (fun ⟨q, hq, hpacket, _⟩ => ⟨q, hq, hpacket⟩) And.left

theorem mem_due_iff {f : Flooder} {now : ℚ} {p : Packet} :
    p ∈ (f.due now).1 ↔ ∃ k q, f.pending.get? k = some q ∧ q.sendAt ≤ now ∧ q.packet = p := by
  simp [due, OrderedDict.get?_eq_some_iff]
  aesop

theorem get?_pending_due (f : Flooder) (now : ℚ) (k : Key) :
    (f.due now).2.pending.get? k =
      (f.pending.get? k).filter (fun q => decide (¬ q.sendAt ≤ now)) := by
  rw [due, OrderedDict.get?_filter]

end Flooder

end Beachedmesh
