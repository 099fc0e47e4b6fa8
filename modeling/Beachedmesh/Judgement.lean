import Beachedmesh.RouteTable

/-!
# What the route operations do to one node

One inversion lemma for each operation, so that later proofs split on its cases
and never on its body. `bearing` is the routing part of a stored record, which a
flush does not change.
-/
namespace Beachedmesh

/-! ### Stored bearings -/

/-- The routing part of a record. -/
structure Bearing where
  nextHop : Mac
  hops : ℕ
  rssi : Option ℤ
  lastSeen : ℚ
  deriving DecidableEq

def Route.bearing (r : Route) : Bearing := ⟨r.nextHop, r.hops, r.rssi, r.lastSeen⟩

def Hearing.bearing (h : Hearing) : Bearing := ⟨h.nextHop, h.hops, h.rssi, h.lastSeen⟩

def Row.bearing (r : Row) : Bearing := ⟨r.nextHop, r.hops, r.rssi, r.lastSeen⟩

namespace ColdStore

def bearing? (c : ColdStore) (n : NodeId) : Option Bearing := (c.get n).map Route.bearing

theorem bearing?_eq (c : ColdStore) (n : NodeId) :
    c.bearing? n = match c.buf.get? n with
      | some h => some h.bearing
      | none => (c.rows.get? n).map Row.bearing := by
  rw [bearing?, get]
  cases c.buf.get? n with
  | some h => rfl
  | none => cases c.rows.get? n <;> rfl

@[simp] theorem bearing?_flush (c : ColdStore) (mono : ℚ) (n : NodeId) :
    (c.flush mono).bearing? n = c.bearing? n := by
  rw [bearing?, get_flush, bearing?_eq]
  cases c.buf.get? n with
  | some h => cases c.rows.get? n <;> rfl
  | none => cases c.rows.get? n <;> rfl

@[simp] theorem bearing?_maybeFlush (c : ColdStore) (check done : ℚ) (n : NodeId) :
    (c.maybeFlush check done).bearing? n = c.bearing? n := by
  rw [maybeFlush]
  split_ifs
  · exact bearing?_flush c done n
  · rfl

@[simp] theorem bearing?_buffer (c : ColdStore) (n m : NodeId) (h : Hearing) (mono : ℚ) :
    (c.buffer n h mono).bearing? m = if m = n then some h.bearing else c.bearing? m := by
  have hins : ({ c with buf := c.buf.insert n (c.merge n h) } : ColdStore).bearing? m =
      if m = n then some h.bearing else c.bearing? m := by
    rw [bearing?_eq, bearing?_eq, OrderedDict.get?_insert]
    split_ifs with hm
    · simp [Hearing.bearing]
    · rfl
  rw [buffer_eq]
  split_ifs with hsize hm hm
  · rw [bearing?_flush, hins, if_pos hm]
  · rw [bearing?_flush, hins, if_neg hm]
  · rw [hins, if_pos hm]
  · rw [hins, if_neg hm]

/-- Expiry deletes the old rows that no buffered hearing hides. -/
theorem bearing?_expire (c : ColdStore) (ttl now : ℚ) (n : NodeId) :
    (c.expire ttl now).bearing? n = match c.buf.get? n with
      | some h => some h.bearing
      | none => ((c.rows.get? n).filter (fun r => decide (¬ r.lastSeen < now - ttl))).map
          Row.bearing := by
  rw [bearing?_eq, expire]
  simp only [OrderedDict.get?_filter]

end ColdStore

/-! ### Packing -/

/-- Packing keeps the four values; that they fit is what the result says. -/
theorem pack_eq_some_iff {nextHop : Mac} {hops : ℕ} {rssi lastSeen : ℤ} {e : Packed} :
    pack nextHop hops rssi lastSeen = some e ↔
      e.nextHop = nextHop ∧ e.hops = hops ∧ e.rssi = rssi ∧ (e.lastSeen : ℤ) = lastSeen := by
  obtain ⟨nh, hp, rs, ls, h₁, h₂, h₃, h₄⟩ := e
  rw [pack]
  split_ifs with h
  · simp only [Option.some.injEq, Packed.mk.injEq]
    constructor
    · rintro ⟨rfl, rfl, rfl, rfl⟩
      exact ⟨rfl, rfl, rfl, Int.toNat_of_nonneg h.2.2.2.1⟩
    · rintro ⟨rfl, rfl, rfl, rfl⟩
      exact ⟨rfl, rfl, rfl, by simp⟩
  · simp only [false_iff]
    rintro ⟨rfl, rfl, rfl, rfl⟩
    exact h ⟨h₁, h₂, h₃, by omega, by omega⟩

theorem pyInt_mono {x y : ℚ} (h : x ≤ y) : pyInt x ≤ pyInt y := by
  simp only [pyInt]
  split_ifs with hx hy hy
  · exact Int.floor_mono h
  · exact absurd (hx.trans h) hy
  · have hle : ⌈x⌉ ≤ 0 := Int.ceil_le.mpr (by push_cast; linarith)
    exact hle.trans (Int.floor_nonneg.mpr hy)
  · exact Int.ceil_mono h

theorem lt_pyInt_add_one (x : ℚ) : x < pyInt x + 1 := by
  simp only [pyInt]
  split_ifs with h
  · exact Int.lt_floor_add_one x
  · have := Int.le_ceil x
    linarith

namespace RouteTable

/-! ### Writing a hot entry -/

/-- The stored bearing of a node, buffered or on disk. -/
def stored (t : RouteTable) (n : NodeId) : Option Bearing := t.cold.bind (fun s => s.bearing? n)

theorem stored_note (t : RouteTable) (n m : NodeId) (h : Hearing) (mono : ℚ) :
    (t.note n h mono).stored m = if m = n then t.cold.map (fun _ => h.bearing) else t.stored m := by
  rw [stored, stored, note]
  cases t.cold with
  | none => simp
  | some s => simp

/-- A hot entry lands at the end, and what does not fit falls off the front. -/
def place (t : RouteTable) (n : NodeId) (e : Packed) : RouteTable :=
  { t with hot := (t.hot.reinsert n e).evict t.maxHot }

theorem get?_place_self {t : RouteTable} (h : 0 < t.maxHot) (n : NodeId) (e : Packed) :
    (t.place n e).hot.get? n = some e := by
  have hy : ((t.hot.reinsert n e).evict t.maxHot).YoungerIn n ∅ :=
    (OrderedDict.youngerIn_reinsert t.hot n e).evict (by simpa using h)
  obtain ⟨e', he'⟩ := OrderedDict.mem_keys_iff.mp hy.mem_keys
  have hold := OrderedDict.get?_of_get?_evict he'
  rw [OrderedDict.get?_reinsert, if_pos rfl] at hold
  exact he'.trans hold.symm

/-- Placing one entry leaves the others as they are or evicts them. -/
theorem get?_of_get?_place {t : RouteTable} {n m : NodeId} {e e' : Packed}
    (h : (t.place n e).hot.get? m = some e') :
    m = n ∧ e' = e ∨ m ≠ n ∧ t.hot.get? m = some e' := by
  have h' := OrderedDict.get?_of_get?_evict h
  rw [OrderedDict.get?_reinsert] at h'
  split_ifs at h' with hm
  · exact Or.inl ⟨hm, (Option.some.inj h').symm⟩
  · exact Or.inr ⟨hm, h'⟩

theorem putHot_eq_some_iff {t t' : RouteTable} {n : NodeId} {nextHop : Mac} {hops : ℕ}
    {rssi : Option ℤ} {lastSeen : ℚ} :
    t.putHot n nextHop hops rssi lastSeen = some t' ↔
      ∃ e, pack nextHop hops (rssi.getD noRssi) (pyInt lastSeen) = some e ∧ t' = t.place n e := by
  simp only [putHot, Option.map_eq_some_iff]
  exact exists_congr fun e => and_congr_right fun _ => eq_comm

/-- A commit packs the copy, places it and notes it in the store. -/
theorem commit_eq_some_iff {t t' : RouteTable} {c : Copy} {now mono : ℚ} :
    t.commit c now mono = some t' ↔
      ∃ e, pack c.nextHop c.hops (c.rssi.getD noRssi) (pyInt now) = some e ∧
        t' = (t.place c.nodeId e).note c.nodeId (c.hearing now) mono := by
  simp only [commit, Option.map_eq_some_iff, putHot_eq_some_iff]
  constructor
  · rintro ⟨u, ⟨e, he, rfl⟩, rfl⟩
    exact ⟨e, he, rfl⟩
  · rintro ⟨e, he, rfl⟩
    exact ⟨_, ⟨e, he, rfl⟩, rfl⟩

/-- Warming writes hot entries only. -/
theorem warm_rest {t t' : RouteTable} {limit : Option ℕ} (h : t.warm limit = some t') :
    t'.cold = t.cold ∧ t'.pending = t.pending ∧ t'.ownId = t.ownId ∧ t'.maxHot = t.maxHot := by
  unfold warm at h
  cases hs : t.cold with
  | none =>
    simp only [hs] at h
    obtain rfl := Option.some.inj h
    exact ⟨hs, rfl, rfl, rfl⟩
  | some s =>
    simp only [hs] at h
    rw [← hs]
    refine Machine.foldlM_invariant (fun u => u.cold = t.cold ∧ u.pending = t.pending ∧
      u.ownId = t.ownId ∧ u.maxHot = t.maxHot) (fun _ hu hput => ?_) ⟨rfl, rfl, rfl, rfl⟩ h
    obtain ⟨e, -, rfl⟩ := putHot_eq_some_iff.mp hput
    exact hu

/-! ### Learning -/

/-- When a copy replaces the held route, and with which verdict. -/
inductive Commits (c : Copy) (now : ℚ) : Option Packed → LearnVerdict → Prop
  | new : Commits c now none .new
  | shorter (old : Packed) : c.hops < old.hops → Commits c now (some old) .better
  | refreshed (old : Packed) : c.hops = old.hops → c.nextHop = old.nextHop →
      Commits c now (some old) .refreshed
  | swapped (old : Packed) : c.hops = old.hops → c.nextHop ≠ old.nextHop →
      floodGuard < now - old.lastSeen ∨ stronger c.rssi old.rssi = true →
      Commits c now (some old) .better

/-- A candidate is replaced by a better one only. -/
theorem sharpen_ne {p : Option Settle} {c : Copy} {now : ℚ} {q : Settle}
    (h : sharpen p c now = some q) : p ≠ some q := by
  rintro rfl
  rw [sharpen] at h
  split_ifs at h with hbetter
  have hq := Option.some.inj h
  have hhops : c.hops = q.hops := congrArg Settle.hops hq
  have hrssi : c.rssi.getD noRssi = q.rssi := congrArg Settle.rssi hq
  rcases hbetter with hlt | ⟨-, hstr⟩
  · omega
  · rw [← hrssi] at hstr
    cases hr : c.rssi <;> simp [hr, stronger] at hstr

/-- The pending table after a worse copy, past the guard. -/
def sharpened (t : RouteTable) (c : Copy) (now : ℚ) : OrderedDict NodeId Settle :=
  match sharpen (t.pending.get? c.nodeId) c now with
  | some p => t.pending.insert c.nodeId p
  | none => t.pending

theorem get?_sharpened (t : RouteTable) (c : Copy) (now : ℚ) (n : NodeId) :
    (t.sharpened c now).get? n =
      if n = c.nodeId then (sharpen (t.pending.get? c.nodeId) c now).or (t.pending.get? n)
      else t.pending.get? n := by
  rw [sharpened]
  cases sharpen (t.pending.get? c.nodeId) c now <;> simp

/-- Everything `learn` can do. -/
inductive Learned (t : RouteTable) (c : Copy) (now mono : ℚ) : LearnVerdict → RouteTable → Prop
  | self : t.ownId = some c.nodeId → Learned t c now mono .self t
  | committed (v : LearnVerdict) (t' : RouteTable) : t.ownId ≠ some c.nodeId →
      Commits c now (t.hot.get? c.nodeId) v →
      (t.dropPending c.nodeId).commit c now mono = some t' → Learned t c now mono v t'
  | keptEqual (old : Packed) : t.ownId ≠ some c.nodeId → t.hot.get? c.nodeId = some old →
      c.hops = old.hops → c.nextHop ≠ old.nextHop → now - old.lastSeen ≤ floodGuard →
      stronger c.rssi old.rssi = false →
      Learned t c now mono .kept ((t.dropPending c.nodeId).note c.nodeId (old.heard c now) mono)
  | settling (old : Packed) : t.ownId ≠ some c.nodeId → t.hot.get? c.nodeId = some old →
      old.hops < c.hops → floodGuard < now - old.lastSeen →
      Learned t c now mono .settling
        (note { t with pending := t.sharpened c now } c.nodeId (old.heard c now) mono)
  | keptWorse (old : Packed) : t.ownId ≠ some c.nodeId → t.hot.get? c.nodeId = some old →
      old.hops < c.hops → now - old.lastSeen ≤ floodGuard →
      Learned t c now mono .kept (t.note c.nodeId (old.heard c now) mono)

theorem learn_cases {t t' : RouteTable} {c : Copy} {now mono : ℚ} {v : LearnVerdict}
    (h : t.learn c now mono = some (v, t')) : Learned t c now mono v t' := by
  rw [learn] at h
  by_cases hown : t.ownId = some c.nodeId
  · rw [if_pos hown] at h
    obtain ⟨rfl, rfl⟩ := Prod.mk.inj (Option.some.inj h)
    exact .self hown
  rw [if_neg hown] at h
  -- the four committing branches differ in their reason only
  have hcommit {w : LearnVerdict} (hw : Commits c now (t.hot.get? c.nodeId) w)
      (hx : ((t.dropPending c.nodeId).commit c now mono).map (fun t' => (w, t')) = some (v, t')) :
      Learned t c now mono v t' := by
    obtain ⟨u, hu, he⟩ := Option.map_eq_some_iff.mp hx
    obtain ⟨rfl, rfl⟩ := Prod.mk.inj he
    exact .committed w u hown hw hu
  cases hhot : t.hot.get? c.nodeId with
  | none =>
    simp only [hhot] at h
    exact hcommit (hhot ▸ Commits.new) h
  | some old =>
    simp only [hhot] at h
    split_ifs at h with hle hlt hhop hguard hlate
    · exact hcommit (hhot ▸ Commits.shorter old hlt) h
    · exact hcommit (hhot ▸ Commits.refreshed old (by omega) hhop) h
    · obtain ⟨rfl, rfl⟩ := Prod.mk.inj (Option.some.inj h)
      exact .keptEqual old hown hhot (by omega) hhop hguard.1 (by simpa using hguard.2)
    · refine hcommit (hhot ▸ Commits.swapped old (by omega) hhop ?_) h
      by_cases hg : now - old.lastSeen ≤ floodGuard
      · exact Or.inr (by_contra fun hs => hguard ⟨hg, hs⟩)
      · exact Or.inl (not_le.mp hg)
    · obtain ⟨rfl, rfl⟩ := Prod.mk.inj (Option.some.inj h)
      exact .settling old hown hhot (by omega) hlate
    · obtain ⟨rfl, rfl⟩ := Prod.mk.inj (Option.some.inj h)
      exact .keptWorse old hown hhot (by omega) (not_lt.mp hlate)

end RouteTable

/-- The held route gives way to the copy: fewer hops, or as many from the same
neighbour, past the guard or stronger. -/
def Packed.Yields (old : Packed) (c : Copy) (now : ℚ) : Prop :=
  c.hops < old.hops ∨ c.hops = old.hops ∧
    (c.nextHop = old.nextHop ∨ floodGuard < now - old.lastSeen ∨
      stronger c.rssi old.rssi = true)

namespace RouteTable

/-- The pending table after a copy that leaves the held route standing. -/
def standing (t : RouteTable) (c : Copy) (now : ℚ) (old : Packed) : OrderedDict NodeId Settle :=
  if c.hops = old.hops then t.pending.erase c.nodeId
  else if floodGuard < now - old.lastSeen then t.sharpened c now
  else t.pending

/-- A copy of another node either replaces the held route or leaves it standing. -/
theorem learn_replaces_or_stands {t t' : RouteTable} {c : Copy} {now mono : ℚ} {v : LearnVerdict}
    (h : t.learn c now mono = some (v, t')) (hown : t.ownId ≠ some c.nodeId) :
    ((∀ old, t.hot.get? c.nodeId = some old → old.Yields c now) ∧
      (t.dropPending c.nodeId).commit c now mono = some t') ∨
    ∃ old, t.hot.get? c.nodeId = some old ∧ ¬ old.Yields c now ∧
      t' = note { t with pending := t.standing c now old } c.nodeId (old.heard c now) mono := by
  cases learn_cases h with
  | self hself => exact absurd hself hown
  | committed v t' _ hc hcommit =>
    refine Or.inl ⟨fun old hold => ?_, hcommit⟩
    rw [hold] at hc
    cases hc with
    | shorter old hlt => exact Or.inl hlt
    | refreshed old heq hnh => exact Or.inr ⟨heq, Or.inl hnh⟩
    | swapped old heq _ hg => exact Or.inr ⟨heq, Or.inr hg⟩
  | keptEqual old _ hold heq hnh hg hs =>
    refine Or.inr ⟨old, hold, ?_, ?_⟩
    · rintro (hlt | ⟨-, hsame | hlate | hstr⟩)
      · omega
      · exact hnh hsame
      · exact absurd hlate (not_lt.mpr hg)
      · rw [hs] at hstr
        cases hstr
    · rw [standing, if_pos heq]
      rfl
  | settling old _ hold hlt hlate =>
    refine Or.inr ⟨old, hold, ?_, ?_⟩
    · rintro (hgt | ⟨heq, -⟩) <;> omega
    · rw [standing, if_neg (by omega), if_pos hlate]
  | keptWorse old _ hold hlt hg =>
    refine Or.inr ⟨old, hold, ?_, ?_⟩
    · rintro (hgt | ⟨heq, -⟩) <;> omega
    · rw [standing, if_neg (by omega), if_neg (not_lt.mpr hg)]

end RouteTable

/-- The verdict on a copy of another node, from the entry it is compared with. -/
def verdictOn (c : Copy) (now : ℚ) : Option Packed → LearnVerdict
  | none => .new
  | some old =>
    if c.hops < old.hops then .better
    else if old.hops < c.hops then
      if floodGuard < now - old.lastSeen then .settling else .kept
    else if c.nextHop = old.nextHop then .refreshed
    else if now - old.lastSeen ≤ floodGuard ∧ stronger c.rssi old.rssi = false then .kept
    else .better

/-- `learn` judges by the hot entry alone. -/
theorem RouteTable.verdict_of_learn {t t' : RouteTable} {c : Copy} {now mono : ℚ}
    {v : LearnVerdict} (h : t.learn c now mono = some (v, t')) (hown : t.ownId ≠ some c.nodeId) :
    v = verdictOn c now (t.hot.get? c.nodeId) := by
  cases learn_cases h with
  | self hself => exact absurd hself hown
  | committed v t' _ hc _ =>
    generalize t.hot.get? c.nodeId = held at hc ⊢
    cases hc with
    | new => rfl
    | shorter old hlt => exact (if_pos hlt).symm
    | refreshed old heq hnh =>
      rw [verdictOn, if_neg (by omega), if_neg (by omega), if_pos hnh]
    | swapped old heq hnh hg =>
      have hout : ¬ (now - old.lastSeen ≤ floodGuard ∧ stronger c.rssi old.rssi = false) := by
        rintro ⟨hin, hs⟩
        rcases hg with hlate | hstr
        · exact absurd hlate (not_lt.mpr hin)
        · rw [hs] at hstr
          cases hstr
      rw [verdictOn, if_neg (by omega), if_neg (by omega), if_neg hnh, if_neg hout]
  | keptEqual old _ hold heq hnh hg hs => simp [verdictOn, hold, heq, hnh, hg, hs]
  | settling old _ hold hlt hlate => simp [verdictOn, hold, hlt, hlt.le.not_gt, hlate]
  | keptWorse old _ hold hlt hg => simp [verdictOn, hold, hlt, hlt.le.not_gt, hg.not_gt]

end Beachedmesh
