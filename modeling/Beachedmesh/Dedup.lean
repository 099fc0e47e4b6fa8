import Beachedmesh.Flood

/-!
# Duplicate suppression over whole runs

The flooder as a machine: packets arrive, timers fire, and the node enters its
own announces. A key taken up for the first time stays recognised until its time
runs out or enough other keys push it from the cache; conversely only keys that
were really received, or that are still pending, are taken for copies.
-/
namespace Beachedmesh
open Machine

inductive FloodOp where
  | receive (pkt : Packet) (rssi : Option ℤ) (clk : ReceiveClock) (draw : ℚ)
  | due (now : ℚ)
  | announce (packetId : PacketId) (now : ℚ)
  deriving DecidableEq

inductive FloodOut where
  | verdict (v : Verdict)
  | handed (relays : List Packet)
  | announced
  deriving DecidableEq

namespace FloodOp

def readings : FloodOp → List ℚ
  | .receive _ _ clk _ => [clk.lookup, clk.insert, clk.schedule]
  | .due now => [now]
  | .announce _ now => [now]

/-- The key that an operation receives or inserts. -/
def key? (own : NodeId) : FloodOp → Option Key
  | .receive pkt _ _ _ => some pkt.key
  | .due _ => none
  | .announce packetId _ => some (own, packetId)

/-- The operation enters `key` in the cache at time `ts`, if it enters anything. -/
def Enters (own : NodeId) (key : Key) (ts : ℚ) : FloodOp → Prop
  | .receive pkt _ clk _ => pkt.key = key ∧ clk.insert = ts
  | .due _ => False
  | .announce packetId now => (own, packetId) = key ∧ now = ts

end FloodOp

/-- The relays handed out over a run. -/
def handedOut (os : List FloodOut) : List Packet :=
  os.flatMap fun o => match o with
    | .handed relays => relays
    | _ => []

/-- The other keys received or inserted by the operations. -/
def othersIn (own : NodeId) (key : Key) (ops : List FloodOp) : Finset Key :=
  (ops.filterMap (FloodOp.key? own)).toFinset.erase key

namespace Flooder

/-- A flooder with nothing pending and an empty cache of the given bounds. -/
def start (own : NodeId) (threshold capacity : ℕ) (ttl : ℚ) : Flooder :=
  { Flooder.new (some own) threshold none with seen := SeenCache.new capacity ttl }

/-- The constructor gives a cache of 4096 keys and ten minutes, also for an empty cache that
is passed in: that one is dropped. -/
theorem new_eq_start (own : NodeId) (threshold : ℕ) {seen : Option SeenCache}
    (h : ∀ c ∈ seen, c.d.size = 0) : Flooder.new (some own) threshold seen =
      start own threshold 4096 600 := by
  cases seen with
  | none => rfl
  | some c =>
    rw [Flooder.new, start]
    simp only [h c rfl, if_true]
    rfl

def step (own : NodeId) (f : Flooder) : FloodOp → Option (Flooder × FloodOut)
  | .receive pkt rssi clk draw =>
    some ((f.onReceive pkt rssi clk draw).2, .verdict (f.onReceive pkt rssi clk draw).1)
  | .due now => some ((f.due now).2, .handed (f.due now).1)
  | .announce packetId now => some (f.insertSeen (own, packetId) now, .announced)

theorem step_receive_iff {own : NodeId} {f f' : Flooder} {pkt : Packet} {rssi : Option ℤ}
    {clk : ReceiveClock} {draw : ℚ} {o : FloodOut} :
    f.step own (.receive pkt rssi clk draw) = some (f', o) ↔
      ∃ v, f.onReceive pkt rssi clk draw = (v, f') ∧ o = .verdict v := by
  simp only [step, Option.some.injEq, Prod.ext_iff]
  constructor
  · rintro ⟨rfl, rfl⟩
    exact ⟨_, ⟨rfl, rfl⟩, rfl⟩
  · rintro ⟨v, ⟨rfl, rfl⟩, rfl⟩
    exact ⟨rfl, rfl⟩

/-! ### Own packets and the size of the cache -/

/-- The relays of a node stand under their own keys, and are not of its own packets. -/
structure Keyed (own : NodeId) (f : Flooder) : Prop where
  own_eq : f.ownId = some own
  key_eq : ∀ k p, f.pending.get? k = some p → p.packet.key = k
  foreign : ∀ k p, f.pending.get? k = some p → k.1 ≠ own

theorem keyed_new (own : NodeId) (threshold : ℕ) (seen : Option SeenCache) :
    (new (some own) threshold seen).Keyed own where
  own_eq := rfl
  key_eq := by simp [new]
  foreign := by simp [new]

theorem Keyed.onReceive {own : NodeId} {f f' : Flooder} (hk : f.Keyed own) {pkt : Packet}
    {rssi : Option ℤ} {clk : ReceiveClock} {draw : ℚ} {v : Verdict}
    (h : f.onReceive pkt rssi clk draw = (v, f')) : f'.Keyed own := by
  have hpend {k : Key} {p : Pending} (hp : f'.pending.get? k = some p) :
      p.packet.key = k ∧ k.1 ≠ own := by
    rcases pending_onReceive h hp with ⟨q, hq, he⟩ | ⟨rfl, -, hv, hr⟩
    · rw [he]
      exact ⟨hk.key_eq k q hq, hk.foreign k q hq⟩
    · refine ⟨Packet.relayed_key hr, fun he => ((isFirst_iff h).mp hv).1 ?_⟩
      rw [hk.own_eq]
      exact congrArg some he.symm
  exact ⟨(ownId_onReceive h).trans hk.own_eq, fun _ _ hp => (hpend hp).1,
    fun _ _ hp => (hpend hp).2⟩

theorem keyed_due {own : NodeId} {f : Flooder} (hk : f.Keyed own) (now : ℚ) :
    (f.due now).2.Keyed own := by
  have hsub {k : Key} {p : Pending} (hp : (f.due now).2.pending.get? k = some p) :
      f.pending.get? k = some p := by
    rw [get?_pending_due] at hp
    exact (Option.filter_eq_some_iff.mp hp).1
  exact ⟨hk.own_eq, fun k p hp => hk.key_eq k p (hsub hp), fun k p hp => hk.foreign k p (hsub hp)⟩

theorem Keyed.step {own : NodeId} {f f' : Flooder} (hk : f.Keyed own) {op : FloodOp}
    {o : FloodOut} (h : f.step own op = some (f', o)) : f'.Keyed own := by
  cases op with
  | receive pkt rssi clk draw =>
    obtain ⟨v, hrecv, -⟩ := step_receive_iff.mp h
    exact hk.onReceive hrecv
  | due now =>
    obtain ⟨rfl, -⟩ := Prod.mk.inj (Option.some.inj h)
    exact keyed_due hk now
  | announce packetId now =>
    obtain ⟨rfl, -⟩ := Prod.mk.inj (Option.some.inj h)
    exact ⟨hk.own_eq, hk.key_eq, hk.foreign⟩

/-- What every run keeps: whose flooder it is, that pending relays stand under
their own keys and are foreign, and that the cache respects its bounds. -/
structure Sane (own : NodeId) (capacity : ℕ) (ttl : ℚ) (f : Flooder) : Prop where
  own_eq : f.ownId = some own
  capacity_eq : f.seen.capacity = capacity
  ttl_eq : f.seen.ttl = ttl
  size_le : f.seen.d.size ≤ capacity
  key_eq : ∀ k p, f.pending.get? k = some p → p.packet.key = k
  foreign : ∀ k p, f.pending.get? k = some p → k.1 ≠ own

theorem sane_start (own : NodeId) (threshold capacity : ℕ) (ttl : ℚ) :
    (start own threshold capacity ttl).Sane own capacity ttl where
  own_eq := rfl
  capacity_eq := rfl
  ttl_eq := rfl
  size_le := Nat.zero_le _
  key_eq := by simp [start, Flooder.new]
  foreign := by simp [start, Flooder.new]

theorem Sane.keyed {own : NodeId} {capacity : ℕ} {ttl : ℚ} {f : Flooder}
    (hs : f.Sane own capacity ttl) : f.Keyed own :=
  ⟨hs.own_eq, hs.key_eq, hs.foreign⟩

theorem size_add_le (c : SeenCache) (key : Key) (now : ℚ) :
    (c.add key now).d.size ≤ c.capacity :=
  OrderedDict.size_evict_le _ _

theorem Sane.onReceive {own : NodeId} {capacity : ℕ} {ttl : ℚ} {f f' : Flooder}
    (hs : f.Sane own capacity ttl) {pkt : Packet} {rssi : Option ℤ} {clk : ReceiveClock}
    {draw : ℚ} {v : Verdict} (h : f.onReceive pkt rssi clk draw = (v, f')) :
    f'.Sane own capacity ttl := by
  have hcap : (f.seen.seen pkt.key clk.lookup).2.capacity = capacity := by
    rw [SeenCache.capacity_seen, hs.capacity_eq]
  have hadd : ((f.seen.seen pkt.key clk.lookup).2.add pkt.key clk.insert).d.size ≤ capacity :=
    hcap ▸ size_add_le _ _ _
  have httl : (f.seen.seen pkt.key clk.lookup).2.ttl = ttl := by
    rw [SeenCache.ttl_seen, hs.ttl_eq]
  have hseen : f'.seen.capacity = capacity ∧ f'.seen.ttl = ttl ∧ f'.seen.d.size ≤ capacity := by
    cases onReceive_cases h with
    | duplicate _ _ _ =>
      exact ⟨hs.capacity_eq, hs.ttl_eq, (OrderedDict.size_moveToEnd _ _).trans_le hs.size_le⟩
    | noHops _ _ _ _ => exact ⟨hcap, httl, hadd⟩
    | scheduled _ _ _ _ _ => exact ⟨hcap, httl, hadd⟩
    | _ => exact ⟨hs.capacity_eq, hs.ttl_eq, hs.size_le⟩
  obtain ⟨hown, hkey, hforeign⟩ := hs.keyed.onReceive h
  exact ⟨hown, hseen.1, hseen.2.1, hseen.2.2, hkey, hforeign⟩

theorem Sane.step {own : NodeId} {capacity : ℕ} {ttl : ℚ} {f f' : Flooder}
    (hs : f.Sane own capacity ttl) {op : FloodOp} {o : FloodOut}
    (h : f.step own op = some (f', o)) : f'.Sane own capacity ttl := by
  cases op with
  | receive pkt rssi clk draw =>
    obtain ⟨v, hrecv, -⟩ := step_receive_iff.mp h
    exact hs.onReceive hrecv
  | due now =>
    obtain ⟨rfl, -⟩ := Prod.mk.inj (Option.some.inj h)
    obtain ⟨-, hkey, hforeign⟩ := keyed_due hs.keyed now
    exact { hs with key_eq := hkey, foreign := hforeign }
  | announce packetId now =>
    obtain ⟨rfl, -⟩ := Prod.mk.inj (Option.some.inj h)
    exact { hs with size_le := hs.capacity_eq ▸ size_add_le _ _ _ }

theorem Sane.exec {own : NodeId} {capacity : ℕ} {ttl : ℚ} {f f' : Flooder}
    (hs : f.Sane own capacity ttl) {ops : List FloodOp} {os : List FloodOut}
    (h : Machine.exec (Flooder.step own) f ops = some (f', os)) : f'.Sane own capacity ttl :=
  exec_invariant (P := fun _ => True) (fun hs _ h => Sane.step hs h) hs (by simp) h

/-- What a sane flooder hands out was pending, so it is foreign. -/
theorem Sane.handed_foreign {own : NodeId} {capacity : ℕ} {ttl : ℚ} {f f' : Flooder}
    (hs : f.Sane own capacity ttl) {ops : List FloodOp} {os : List FloodOut}
    (h : Machine.exec (Flooder.step own) f ops = some (f', os)) :
    ∀ p ∈ handedOut os, p.src ≠ own := by
  induction ops generalizing f os with
  | nil =>
    obtain ⟨-, rfl⟩ := Prod.mk.inj (Option.some.inj h)
    simp [handedOut]
  | cons op ops ih =>
    obtain ⟨f₁, o, os', h₁, h₂, rfl⟩ := exec_cons_iff.mp h
    intro p hp
    rw [handedOut, List.flatMap_cons, List.mem_append] at hp
    rcases hp with hp | hp
    · cases op with
      | receive pkt rssi clk draw =>
        obtain ⟨v, -, rfl⟩ := step_receive_iff.mp h₁
        simp at hp
      | due now =>
        obtain ⟨-, rfl⟩ := Prod.mk.inj (Option.some.inj h₁)
        obtain ⟨k, q, hq, -, rfl⟩ := mem_due_iff.mp hp
        have hk := hs.key_eq k q hq
        exact fun he => hs.foreign k q hq (by rw [← hk]; exact he)
      | announce packetId now =>
        obtain ⟨-, rfl⟩ := Prod.mk.inj (Option.some.inj h₁)
        simp at hp
    · exact ih (hs.step h₁) h₂ p hp

/-! ### A key once entered stays covered -/

/-- The key stands in the cache with time `ts`, and only keys of `K` are younger. -/
structure Covered (f : Flooder) (key : Key) (ts : ℚ) (K : Finset Key) : Prop where
  younger : f.seen.d.YoungerIn key K
  time : f.seen.d.get? key = some ts

theorem Covered.get?_evict {d : OrderedDict Key ℚ} {key : Key} {ts : ℚ} {K : Finset Key}
    {capacity : ℕ} (hy : (d.evict capacity).YoungerIn key K) (ht : d.get? key = some ts) :
    (d.evict capacity).get? key = some ts := by
  obtain ⟨ts', h⟩ := OrderedDict.mem_keys_iff.mp hy.mem_keys
  rw [h, ← ht, OrderedDict.get?_of_get?_evict h]

theorem Covered.mono {f : Flooder} {key : Key} {ts : ℚ} {K L : Finset Key}
    (h : f.Covered key ts K) (hKL : K ⊆ L) : f.Covered key ts L :=
  ⟨h.younger.mono hKL, h.time⟩

/-- Entering the key itself leaves nothing younger. -/
theorem covered_add (c : SeenCache) (key : Key) (now : ℚ) (hcap : 0 < c.capacity) :
    (c.add key now).d.YoungerIn key ∅ ∧ (c.add key now).d.get? key = some now := by
  have hmem : key ∈ (c.d.insert key now).keys :=
    OrderedDict.mem_keys_iff.mpr ⟨now, by simp⟩
  have hy : (c.add key now).d.YoungerIn key ∅ :=
    (OrderedDict.youngerIn_moveToEnd hmem).evict (by simpa using hcap)
  exact ⟨hy, Covered.get?_evict hy (by simp)⟩

/-- Entering another key puts only that one behind. -/
theorem covered_add_of_ne {c : SeenCache} {key j : Key} {ts now : ℚ} {K : Finset Key}
    (hy : c.d.YoungerIn key K) (ht : c.d.get? key = some ts) (hj : j ≠ key)
    (hK : (K ∪ {j}).card < c.capacity) :
    (c.add j now).d.YoungerIn key (K ∪ {j}) ∧ (c.add j now).d.get? key = some ts := by
  have hins : ((c.d.insert j now).moveToEnd j).YoungerIn key (K ∪ {j}) := by
    by_cases hmem : j ∈ c.d.keys
    · refine OrderedDict.YoungerIn.moveToEnd ?_ hj
      obtain ⟨pre, post, hk, hpost⟩ := hy
      exact ⟨pre, post, by rw [OrderedDict.keys_insert_of_mem _ hmem, hk], hpost⟩
    · obtain ⟨pre, post, hk, hpost⟩ := hy
      have hy' : (c.d.insert j now).YoungerIn key (K ∪ {j}) := by
        refine ⟨pre, post ++ [j], ?_, ?_⟩
        · rw [OrderedDict.keys_insert_of_not_mem _ hmem, hk]
          simp
        · intro i hi
          rcases List.mem_append.mp hi with hi | hi
          · exact Finset.mem_union_left _ (hpost i hi)
          · exact Finset.mem_union_right _ (by simpa using hi)
      exact (hy'.moveToEnd hj).mono (by simp)
  have hy' : (c.add j now).d.YoungerIn key (K ∪ {j}) := hins.evict hK
  exact ⟨hy', Covered.get?_evict hy' (by simp [hj.symm, ht])⟩

/-- A covered key is known, so no copy of it is taken for a first one; the copy
itself leaves it covered. -/
theorem Covered.onReceive_self {f f' : Flooder} {key : Key} {ts : ℚ} {K : Finset Key}
    (hc : f.Covered key ts K) {pkt : Packet} (hkey : pkt.key = key) {rssi : Option ℤ}
    {clk : ReceiveClock} {draw : ℚ} {v : Verdict} (hage : clk.lookup - ts ≤ f.seen.ttl)
    (h : f.onReceive pkt rssi clk draw = (v, f')) : ¬ v.IsFirst ∧ f'.Covered key ts K := by
  subst hkey
  have hlive : f.seen.Live pkt.key clk.lookup := ⟨ts, hc.time, hage⟩
  refine ⟨fun hv => ((isFirst_iff h).mp hv).2 (Or.inr hlive), ?_⟩
  cases onReceive_cases h with
  | own hfrom => exact ⟨hc.younger, hc.time⟩
  | cancelled p hfrom hp hthr => exact ⟨hc.younger, hc.time⟩
  | counted p hfrom hp hthr => exact ⟨hc.younger, hc.time⟩
  | duplicate hfrom hp hl =>
    exact ⟨(OrderedDict.youngerIn_moveToEnd hc.younger.mem_keys).mono (by simp),
      by simpa using hc.time⟩
  | noHops hfrom hp hl hr => exact absurd hlive hl
  | scheduled relay hfrom hp hl hr => exact absurd hlive hl

/-- Another key's packet adds at most that key to the younger ones. -/
theorem Covered.onReceive_other {f f' : Flooder} {key : Key} {ts : ℚ} {K : Finset Key}
    (hc : f.Covered key ts K) {pkt : Packet} (hkey : pkt.key ≠ key) {rssi : Option ℤ}
    {clk : ReceiveClock} {draw : ℚ} {v : Verdict} (hK : (K ∪ {pkt.key}).card < f.seen.capacity)
    (h : f.onReceive pkt rssi clk draw = (v, f')) : f'.Covered key ts (K ∪ {pkt.key}) := by
  have hle : K ⊆ K ∪ {pkt.key} := Finset.subset_union_left
  have hlook (hl : ¬ f.seen.Live pkt.key clk.lookup) :
      (f.seen.seen pkt.key clk.lookup).2.d.YoungerIn key K := by
    rcases (SeenCache.seen_of_not_live hl).2 with he | he <;> rw [he]
    · exact hc.younger
    · exact hc.younger.erase hkey
  set looked := (f.seen.seen pkt.key clk.lookup).2 with hlooked
  have hadd (hl : ¬ f.seen.Live pkt.key clk.lookup) :
      (looked.add pkt.key clk.insert).d.YoungerIn key (K ∪ {pkt.key}) ∧
        (looked.add pkt.key clk.insert).d.get? key = some ts :=
    covered_add_of_ne (hlook hl) ((SeenCache.get?_seen_of_ne _ _ hkey.symm).trans hc.time) hkey
      (by rwa [hlooked, SeenCache.capacity_seen])
  cases onReceive_cases h with
  | own hfrom => exact ⟨hc.younger.mono hle, hc.time⟩
  | cancelled p hfrom hp hthr => exact ⟨hc.younger.mono hle, hc.time⟩
  | counted p hfrom hp hthr => exact ⟨hc.younger.mono hle, hc.time⟩
  | duplicate hfrom hp hl => exact ⟨hc.younger.moveToEnd hkey, by simpa using hc.time⟩
  | noHops hfrom hp hl hr => exact ⟨(hadd hl).1, (hadd hl).2⟩
  | scheduled relay hfrom hp hl hr => exact ⟨(hadd hl).1, (hadd hl).2⟩

/-- The packet that is taken up for the first time becomes covered. -/
theorem covered_of_isFirst {f f' : Flooder} {pkt : Packet} {rssi : Option ℤ}
    {clk : ReceiveClock} {draw : ℚ} {v : Verdict} (hcap : 0 < f.seen.capacity)
    (h : f.onReceive pkt rssi clk draw = (v, f')) (hv : v.IsFirst) :
    f'.Covered pkt.key clk.insert ∅ := by
  have hadd := covered_add (f.seen.seen pkt.key clk.lookup).2 pkt.key clk.insert
    (by rwa [SeenCache.capacity_seen])
  cases onReceive_cases h with
  | own hfrom => simp [Verdict.IsFirst] at hv
  | cancelled p hfrom hp hthr => simp [Verdict.IsFirst] at hv
  | counted p hfrom hp hthr => simp [Verdict.IsFirst] at hv
  | duplicate hfrom hp hl => simp [Verdict.IsFirst] at hv
  | noHops hfrom hp hl hr => exact ⟨hadd.1, hadd.2⟩
  | scheduled relay hfrom hp hl hr => exact ⟨hadd.1, hadd.2⟩

/-- A copy never makes its key pending; other packets do not touch it. -/
theorem mem_pending_of_onReceive {f f' : Flooder} {pkt : Packet} {rssi : Option ℤ}
    {clk : ReceiveClock} {draw : ℚ} {v : Verdict} {key : Key}
    (hv : pkt.key = key → ¬ v.IsFirst) (h : f.onReceive pkt rssi clk draw = (v, f'))
    (hmem : key ∈ f'.pending.keys) : key ∈ f.pending.keys := by
  obtain ⟨q, hq⟩ := OrderedDict.mem_keys_iff.mp hmem
  rcases pending_onReceive h hq with ⟨p, hp, -⟩ | ⟨hk, -, hfirst, -⟩
  · exact OrderedDict.mem_keys_iff.mpr ⟨p, hp⟩
  · exact absurd hfirst (hv hk.symm)

/-- How often a key is handed out by one `due`: once if it is pending and ready. -/
theorem countP_due_le {own : NodeId} {capacity : ℕ} {ttl : ℚ} {f : Flooder}
    (hs : f.Sane own capacity ttl) (now : ℚ) (key : Key) :
    (f.due now).1.countP (fun p => decide (p.key = key)) +
      (if key ∈ (f.due now).2.pending.keys then 1 else 0) ≤
      if key ∈ f.pending.keys then 1 else 0 := by
  have hcount (p : Key × Pending → Bool) : (f.pending.entries.filter p).countP
      (fun e => decide (e.2.packet.key = key)) =
        ((f.pending.filter p).keys).count key := by
    rw [List.count, OrderedDict.keys, List.countP_map]
    apply List.countP_congr
    intro e he
    have hmem := List.mem_of_mem_filter he
    have hk := hs.key_eq e.1 e.2 (OrderedDict.get?_eq_some_iff.mpr hmem)
    simp [hk]
  have hsplit := List.countP_eq_countP_filter_add f.pending.entries
    (fun e => decide (e.2.packet.key = key)) (fun e => decide (e.2.sendAt ≤ now))
  have hone (d : OrderedDict Key Pending) : d.keys.count key = if key ∈ d.keys then 1 else 0 := by
    split_ifs with hm
    · exact List.count_eq_one_of_mem d.nodup_keys hm
    · exact List.count_eq_zero_of_not_mem hm
  have hall := hcount (fun _ => true)
  simp only [List.filter_true] at hall
  have hfull : f.pending.filter (fun _ => true) = f.pending :=
    OrderedDict.ext (by simp [OrderedDict.filter])
  rw [hfull, hone] at hall
  have hright := hcount (fun e => decide (¬ e.2.sendAt ≤ now))
  rw [hone] at hright
  simp only [due, List.countP_map, Function.comp_def]
  rw [← hall, hsplit]
  simp only [decide_not] at hright ⊢
  rw [hright]

theorem othersIn_cons (own : NodeId) (key : Key) (op : FloodOp) (ops : List FloodOp) :
    othersIn own key (op :: ops) = othersIn own key [op] ∪ othersIn own key ops := by
  unfold othersIn
  rw [← Finset.erase_union_distrib, ← List.toFinset_append, ← List.filterMap_append,
    List.singleton_append]

theorem othersIn_singleton {own : NodeId} {key j : Key} {op : FloodOp} (hop : op.key? own = some j)
    (hj : j ≠ key) : othersIn own key [op] = {j} := by
  simp [othersIn, hop, Finset.erase_eq_of_notMem, hj.symm]

/-- What one operation does to a covered key: no reception of it is a first one, and its
relay is handed out only if it was pending, after which it is not. -/
theorem Covered.step {own : NodeId} {capacity : ℕ} {ttl : ℚ} {f f' : Flooder}
    (hs : f.Sane own capacity ttl) {key : Key} (hown : key.1 ≠ own) {ts : ℚ} {K : Finset Key}
    (hc : f.Covered key ts K) {op : FloodOp} {o : FloodOut}
    (hK : (K ∪ othersIn own key [op]).card < capacity)
    (hage : ∀ pkt rssi clk draw, op = .receive pkt rssi clk draw → pkt.key = key →
      clk.lookup ≤ ts + ttl)
    (h : f.step own op = some (f', o)) :
    f'.Covered key ts (K ∪ othersIn own key [op]) ∧
      (∀ pkt rssi clk draw v, op = .receive pkt rssi clk draw → o = .verdict v → pkt.key = key →
        ¬ v.IsFirst) ∧
      (handedOut [o]).countP (fun p => decide (p.key = key)) +
        (if key ∈ f'.pending.keys then 1 else 0) ≤ if key ∈ f.pending.keys then 1 else 0 := by
  cases op with
  | receive pkt rssi clk draw =>
    obtain ⟨v, hrecv, rfl⟩ := step_receive_iff.mp h
    have hpair : (pkt.key = key → ¬ v.IsFirst) ∧
        f'.Covered key ts (K ∪ othersIn own key [.receive pkt rssi clk draw]) := by
      by_cases hk : pkt.key = key
      · have hlook : clk.lookup - ts ≤ f.seen.ttl := by
          have := hage pkt rssi clk draw rfl hk
          rw [hs.ttl_eq]
          linarith
        obtain ⟨hnot, hcov⟩ := hc.onReceive_self hk hlook hrecv
        exact ⟨fun _ => hnot, hcov.mono Finset.subset_union_left⟩
      · rw [othersIn_singleton (j := pkt.key) rfl hk] at hK ⊢
        exact ⟨fun he => absurd he hk, hc.onReceive_other hk (by rwa [hs.capacity_eq]) hrecv⟩
    refine ⟨hpair.2, ?_, ?_⟩
    · intro pkt' rssi' clk' draw' v' hop ho hk'
      obtain ⟨rfl, -⟩ := FloodOp.receive.inj hop
      obtain rfl := FloodOut.verdict.inj ho
      exact hpair.1 hk'
    · by_cases hm : key ∈ f'.pending.keys
      · simp [handedOut, hm, mem_pending_of_onReceive hpair.1 hrecv hm]
      · simp [handedOut, hm]
  | due now =>
    obtain ⟨rfl, rfl⟩ := Prod.mk.inj (Option.some.inj h)
    refine ⟨⟨hc.younger.mono Finset.subset_union_left, hc.time⟩, by simp, ?_⟩
    simpa [handedOut] using countP_due_le hs now key
  | announce packetId now =>
    obtain ⟨rfl, rfl⟩ := Prod.mk.inj (Option.some.inj h)
    have hj : ((own, packetId) : Key) ≠ key := fun he => hown (congrArg Prod.fst he).symm
    rw [othersIn_singleton (j := (own, packetId)) rfl hj] at hK ⊢
    obtain ⟨hy, ht⟩ := covered_add_of_ne hc.younger hc.time hj (by rwa [hs.capacity_eq])
    refine ⟨⟨hy, ht⟩, by simp, ?_⟩
    exact (Nat.zero_add _).le

/-- Over a run in which `key` stays covered, no reception of it is a first one and
its relay is handed out at most once, and then only if it was pending. -/
theorem Covered.exec {own : NodeId} {capacity : ℕ} {ttl : ℚ} {f f' : Flooder}
    (hs : f.Sane own capacity ttl) {key : Key} (hown : key.1 ≠ own) {ts : ℚ} {K : Finset Key}
    (hc : f.Covered key ts K) {ops : List FloodOp} {os : List FloodOut}
    (hK : (K ∪ othersIn own key ops).card < capacity)
    (hage : ∀ pkt rssi clk draw, FloodOp.receive pkt rssi clk draw ∈ ops → pkt.key = key →
      clk.lookup ≤ ts + ttl)
    (h : Machine.exec (Flooder.step own) f ops = some (f', os)) :
    (∀ io ∈ ops.zip os, ∀ pkt rssi clk draw v,
      io = (FloodOp.receive pkt rssi clk draw, FloodOut.verdict v) → pkt.key = key → ¬ v.IsFirst) ∧
    (handedOut os).countP (fun p => decide (p.key = key)) ≤
      if key ∈ f.pending.keys then 1 else 0 := by
  induction ops generalizing f os K with
  | nil =>
    obtain ⟨-, rfl⟩ := Prod.mk.inj (Option.some.inj h)
    simp [handedOut]
  | cons op ops ih =>
    obtain ⟨f₁, o, os', h₁, h₂, rfl⟩ := exec_cons_iff.mp h
    rw [othersIn_cons, ← Finset.union_assoc] at hK
    have hstep : (K ∪ othersIn own key [op]).card < capacity :=
      lt_of_le_of_lt (Finset.card_le_card Finset.subset_union_left) hK
    obtain ⟨hc₁, hfirst, hcount⟩ := hc.step hs hown hstep
      (fun pkt rssi clk draw hop => hage pkt rssi clk draw (by simp [hop])) h₁
    obtain ⟨hrest, hleft⟩ := ih (hs.step h₁) hc₁ hK
      (fun pkt rssi clk draw hm => hage pkt rssi clk draw (List.mem_cons_of_mem _ hm)) h₂
    refine ⟨?_, ?_⟩
    · intro io hio pkt rssi clk draw v he
      rw [List.zip_cons_cons, List.mem_cons] at hio
      rcases hio with hio | hio
      · rw [hio] at he
        obtain ⟨hop, ho⟩ := Prod.mk.inj he
        exact hfirst pkt rssi clk draw v hop ho
      · exact hrest io hio pkt rssi clk draw v he
    · have hsplit : handedOut (o :: os') = handedOut [o] ++ handedOut os' := by
        simp [handedOut]
      rw [hsplit, List.countP_append]
      exact le_trans (Nat.add_le_add_left hleft _) hcount

/-! ### The cache only holds what was received or inserted -/

/-- Every time in the cache was entered by one of the operations so far. -/
theorem entered_of_get? {own : NodeId} (past : List FloodOp) {ops : List FloodOp} {f f' : Flooder}
    {os : List FloodOut}
    (hf : ∀ k ts, f.seen.d.get? k = some ts → ∃ op ∈ past, op.Enters own k ts)
    (h : Machine.exec (Flooder.step own) f ops = some (f', os)) :
    ∀ k ts, f'.seen.d.get? k = some ts → ∃ op ∈ past ++ ops, op.Enters own k ts := by
  refine exec_history (fun past f => ∀ k ts, f.seen.d.get? k = some ts →
    ∃ op ∈ past, op.Enters own k ts) ?_ hf h
  intro past f op f₁ o hinv hstep k ts hk
  have hold (ho : f.seen.d.get? k = some ts) : ∃ op' ∈ past ++ [op], op'.Enters own k ts := by
    obtain ⟨op', hmem, he⟩ := hinv k ts ho
    exact ⟨op', List.mem_append_left _ hmem, he⟩
  cases op with
  | receive pkt rssi clk draw =>
    obtain ⟨v, hrecv, -⟩ := step_receive_iff.mp hstep
    have hadd (ha : ((f.seen.seen pkt.key clk.lookup).2.add pkt.key clk.insert).d.get? k =
        some ts) : ∃ op' ∈ past ++ [FloodOp.receive pkt rssi clk draw], op'.Enters own k ts := by
      rcases SeenCache.get?_of_get?_add ha with ⟨rfl, rfl⟩ | ha
      · exact ⟨_, List.mem_append_right _ (List.mem_singleton_self _), rfl, rfl⟩
      · exact hold (SeenCache.get?_of_get?_seen ha)
    cases onReceive_cases hrecv with
    | own hfrom => exact hold hk
    | cancelled p hfrom hp hthr => exact hold hk
    | counted p hfrom hp hthr => exact hold hk
    | duplicate hfrom hp hl => exact hold (by simpa using hk)
    | noHops hfrom hp hl hr => exact hadd hk
    | scheduled relay hfrom hp hl hr => exact hadd hk
  | due now =>
    obtain ⟨rfl, -⟩ := Prod.mk.inj (Option.some.inj hstep)
    exact hold hk
  | announce packetId now =>
    obtain ⟨rfl, -⟩ := Prod.mk.inj (Option.some.inj hstep)
    rcases SeenCache.get?_of_get?_add hk with ⟨rfl, rfl⟩ | hk
    · exact ⟨_, List.mem_append_right _ (List.mem_singleton_self _), rfl, rfl⟩
    · exact hold hk

end Flooder

/-- Duplicate suppression, for a flooder with an empty cache of `capacity` keys
and lifetime `ttl` at the start, after any run of receptions, timers and own
announces. (a) A key taken up for the first time is not taken up again, and is
handed out at most once, while its time lasts and fewer than `capacity` other
keys come in. (b) Only a pending key, or one entered within the last `ttl`
seconds, is answered as a copy. (c) Nothing of the node's own is pending or
handed out. (d) The cache keeps to its capacity. -/
theorem dedup_exact (own : NodeId) (threshold capacity : ℕ) (ttl : ℚ)
    {ops : List FloodOp} {f : Flooder} {os : List FloodOut}
    (h : exec (Flooder.step own) (Flooder.start own threshold capacity ttl) ops = some (f, os)) :
    (∀ pkt rssi clk draw v f₁ later f₂ os₂, f.onReceive pkt rssi clk draw = (v, f₁) → v.IsFirst →
      exec (Flooder.step own) f₁ later = some (f₂, os₂) →
      (∀ pkt' rssi' clk' draw', FloodOp.receive pkt' rssi' clk' draw' ∈ later →
        pkt'.key = pkt.key → clk'.lookup ≤ clk.insert + ttl) →
      (othersIn own pkt.key later).card < capacity →
      (∀ io ∈ later.zip os₂, ∀ pkt' rssi' clk' draw' v',
        io = (FloodOp.receive pkt' rssi' clk' draw', FloodOut.verdict v') →
          pkt'.key = pkt.key → ¬ v'.IsFirst) ∧
      (handedOut os₂).countP (fun p => decide (p.key = pkt.key)) ≤ 1) ∧
    (∀ pkt rssi clk draw v f₁, f.onReceive pkt rssi clk draw = (v, f₁) →
      v = .duplicate ∨ v = .cancelled →
      ∀ T, Clocked FloodOp.readings T (ops ++ [.receive pkt rssi clk draw]) →
      pkt.key ∈ f.pending.keys ∨ ∃ op ∈ ops, ∃ ts, op.Enters own pkt.key ts ∧
        ts ≤ clk.lookup ∧ clk.lookup ≤ ts + ttl) ∧
    ((∀ k p, f.pending.get? k = some p → p.packet.src ≠ own) ∧
      ∀ p ∈ handedOut os, p.src ≠ own) ∧
    f.seen.d.size ≤ capacity := by
  have hs₀ := Flooder.sane_start own threshold capacity ttl
  have hs := hs₀.exec h
  refine ⟨?_, ?_, ⟨?_, hs₀.handed_foreign h⟩, hs.size_le⟩
  · intro pkt rssi clk draw v f₁ later f₂ os₂ hrecv hv hlater hwin hfew
    have hown : pkt.key.1 ≠ own := fun he =>
      ((Flooder.isFirst_iff hrecv).mp hv).1 (hs.own_eq.trans (congrArg some he.symm))
    have hc := Flooder.covered_of_isFirst (hs.capacity_eq ▸ Nat.zero_lt_of_lt hfew) hrecv hv
    obtain ⟨hnot, hcount⟩ := hc.exec (hs.onReceive hrecv) hown (by simpa using hfew) hwin hlater
    refine ⟨hnot, hcount.trans ?_⟩
    split_ifs <;> omega
  · intro pkt rssi clk draw v f₁ hrecv hv T hclock
    have hnot : ¬ v.IsFirst := by rcases hv with rfl | rfl <;> simp [Verdict.IsFirst]
    have hown : v ≠ .own := by rcases hv with rfl | rfl <;> simp
    have hknown : f.Known pkt.key clk.lookup := by
      by_contra hk
      exact hnot ((Flooder.isFirst_iff hrecv).mpr
        ⟨fun he => hown ((Flooder.own_iff hrecv).mpr he), hk⟩)
    rcases hknown with hp | ⟨ts, hts, hage⟩
    · exact Or.inl hp
    · obtain ⟨op, hop, hent⟩ := Flooder.entered_of_get? []
        (by simp [Flooder.start, SeenCache.new]) h pkt.key ts hts
      rw [List.nil_append] at hop
      refine Or.inr ⟨op, hop, ts, hent, ?_, by rw [hs.ttl_eq] at hage; linarith⟩
      have hts' : ts ∈ op.readings := by
        cases op with
        | receive pkt rssi clk draw => simp [FloodOp.readings, ← hent.2]
        | due now => exact hent.elim
        | announce packetId now => simp [FloodOp.readings, ← hent.2]
      rw [Clocked, List.flatMap_append, List.pairwise_cons, List.pairwise_append] at hclock
      exact hclock.2.2.2 ts (List.mem_flatMap.mpr ⟨op, hop, hts'⟩) clk.lookup
        (by simp [FloodOp.readings])
  · intro k p hp he
    have hk := hs.key_eq k p hp
    exact hs.foreign k p hp (by rw [← hk]; exact he)

/-- A packet of node 1, its id made of the octet `x`. -/
def samplePacket (x : UInt8) (hopLimit : ℤ) : Packet :=
  ⟨nodeIdOf 1, broadcast, typeData, 0, hopLimit, packetIdOf x, [], version⟩

/-- A copy of the packet at that time, with a hop less left. -/
def copyAt (now : ℚ) : FloodOp := .receive (samplePacket 1 2) none ⟨now, now, now⟩ 0

/-- A packet comes a second and a third time within the lifetime of its key, which goes on
from the first time, and once more after it. -/
theorem dedup_exact_two : ∃ f₁ f,
    (Flooder.start (nodeIdOf 0) 3 2 600).onReceive (samplePacket 1 3) none ⟨10, 10, 10⟩ 0 =
      (.scheduled, f₁) ∧
    exec (Flooder.step (nodeIdOf 0)) f₁ [.due 11, copyAt 600] =
      some (f, [.handed [samplePacket 1 2], .verdict .duplicate]) ∧
    (handedOut [.handed [samplePacket 1 2], .verdict .duplicate]).countP
      (fun p => decide (p.key = (samplePacket 1 3).key)) ≤ 1 ∧
    (f.onReceive (samplePacket 1 2) none ⟨609, 609, 609⟩ 0).1 = .duplicate ∧
    ((samplePacket 1 2).key ∈ f.pending.keys ∨
      ∃ op ∈ [.receive (samplePacket 1 3) none ⟨10, 10, 10⟩ 0, .due 11, copyAt 600],
        ∃ ts, op.Enters (nodeIdOf 0) (samplePacket 1 2).key ts ∧ ts ≤ 609 ∧ 609 ≤ ts + 600) ∧
    (f.onReceive (samplePacket 1 2) none ⟨611, 611, 611⟩ 0).1 = .scheduled ∧
    (∀ k p, f.pending.get? k = some p → p.packet.src ≠ nodeIdOf 0) ∧ f.seen.d.size ≤ 2 := by
  set f₀ : Flooder := Flooder.start (nodeIdOf 0) 3 2 600
  set f₁ : Flooder := (f₀.onReceive (samplePacket 1 3) none ⟨10, 10, 10⟩ 0).2
  have hnil : exec (Flooder.step (nodeIdOf 0)) f₀ [] = some (f₀, []) := rfl
  have hfirst : f₀.onReceive (samplePacket 1 3) none ⟨10, 10, 10⟩ 0 = (.scheduled, f₁) := rfl
  have hrun : (exec (Flooder.step (nodeIdOf 0)) f₁ [.due 11, copyAt 600]).map (fun r =>
      (r.2, (r.1.onReceive (samplePacket 1 2) none ⟨609, 609, 609⟩ 0).1,
        (r.1.onReceive (samplePacket 1 2) none ⟨611, 611, 611⟩ 0).1)) =
      some ([.handed [samplePacket 1 2], .verdict .duplicate], .duplicate, .scheduled) := by
    decide +kernel
  obtain ⟨⟨f, os⟩, hx, hfacts⟩ := Option.map_eq_some_iff.mp hrun
  obtain ⟨rfl, hsecond, hlate⟩ : os = _ ∧ _ = Verdict.duplicate ∧ _ = Verdict.scheduled := by
    simpa only [Prod.mk.injEq] using hfacts
  have hwhole : exec (Flooder.step (nodeIdOf 0)) f₀
      [.receive (samplePacket 1 3) none ⟨10, 10, 10⟩ 0, .due 11, copyAt 600] =
        some (f, [.verdict .scheduled, .handed [samplePacket 1 2], .verdict .duplicate]) :=
    exec_cons_iff.mpr ⟨f₁, _, _, rfl, hx, rfl⟩
  obtain ⟨-, hcopy, ⟨hforeign, -⟩, hsize⟩ := dedup_exact (nodeIdOf 0) 3 2 600 hwhole
  have hwithin (pkt : Packet) (rssi : Option ℤ) (clk : ReceiveClock) (draw : ℚ)
      (hmem : FloodOp.receive pkt rssi clk draw ∈ [.due 11, copyAt 600])
      (_ : pkt.key = (samplePacket 1 3).key) : clk.lookup ≤ 10 + 600 := by
    simp only [copyAt, List.mem_cons, List.not_mem_nil, or_false, reduceCtorEq, false_or,
      FloodOp.receive.injEq] at hmem
    rw [hmem.2.2.1]
    norm_num
  obtain ⟨-, hcount⟩ := (dedup_exact (nodeIdOf 0) 3 2 600 hnil).1 _ _ _ _ _ f₁ _ f _ hfirst
    (by simp [Verdict.IsFirst]) hx hwithin (by decide +kernel)
  refine ⟨f₁, f, hfirst, hx, hcount, hsecond, ?_, hlate, hforeign, hsize⟩
  exact hcopy _ _ _ _ _ _ (Prod.ext hsecond rfl) (Or.inl rfl) 0 (by unfold Clocked; decide +kernel)

end Beachedmesh
