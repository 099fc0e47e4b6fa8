import Beachedmesh.Bystander

/-!
# One flood at one node

The copies of one announce reach a node within two seconds of the first. The
first one either replaces the route or opens a settle, since the guard of the
last write has passed; the later ones can only lower the hop count, because a
route written by this flood is guarded against the longer ones. A tick commits
what has settled.
-/
namespace Beachedmesh
namespace RouteTable

variable {t t' : RouteTable} {x : NodeId} {t₁ : ℚ} {m : Mac} {k : ℕ}

/-- The copies heard so far, the first one at `t₁`, have settled on the next hop `m` and
`k` hops: the route says so, or the settle that will replace an older route. -/
inductive Settling (t : RouteTable) (x : NodeId) (t₁ : ℚ) : Mac → ℕ → Prop
  | held (r : Packed) : t.hot.get? x = some r → t.pending.get? x = none →
      t₁ < r.lastSeen + 1 → Settling t x t₁ r.nextHop r.hops
  | waiting (r : Packed) (q : Settle) : t.hot.get? x = some r → t.pending.get? x = some q →
      t₁ + settleAfter ≤ q.commitAt → floodGuard < t₁ - r.lastSeen → r.hops < q.hops →
      Settling t x t₁ q.nextHop q.hops

theorem Settling.hot_isSome (h : t.Settling x t₁ m k) : (t.hot.get? x).isSome := by
  cases h with
  | held r hr _ _ => rw [hr]; rfl
  | waiting r q hr _ _ _ _ => rw [hr]; rfl

/-- With nothing pending the route itself has settled. -/
theorem Settling.route (h : t.Settling x t₁ m k) (hp : t.pending.get? x = none) :
    ∃ r, t.hot.get? x = some r ∧ r.nextHop = m ∧ r.hops = k := by
  cases h with
  | held r hr _ _ => exact ⟨r, hr, rfl, rfl⟩
  | waiting r q _ hq _ _ _ => cases hp.symm.trans hq

/-- What a commit leaves for its node. -/
theorem settling_commit (hroom : 0 < t.maxHot) {c : Copy} {now mono : ℚ} (h₁ : t₁ ≤ now)
    (h : (t.dropPending c.nodeId).commit c now mono = some t') :
    t'.Settling c.nodeId t₁ c.nextHop c.hops := by
  obtain ⟨e, he, rfl⟩ := commit_eq_some_iff.mp h
  obtain ⟨hnh, hhops, -, hseen⟩ := pack_eq_some_iff.mp he
  rw [← hnh, ← hhops]
  refine .held e ?_ ?_ ?_
  · exact get?_place_self (t := t.dropPending c.nodeId) hroom c.nodeId e
  · show (t.pending.erase c.nodeId).get? c.nodeId = none
    rw [OrderedDict.get?_erase, if_pos rfl]
  · have hlt := lt_pyInt_add_one now
    have hcast : (e.lastSeen : ℚ) = pyInt now := by exact_mod_cast hseen
    rw [hcast]
    linarith

/-- The first copy of a flood: nothing is pending, and the guard of the route has passed. -/
theorem settling_first (hroom : 0 < t.maxHot) {c : Copy} (hown : t.ownId ≠ some c.nodeId)
    (hp : t.pending.get? c.nodeId = none) {now mono : ℚ}
    (hlate : ∀ r, t.hot.get? c.nodeId = some r → floodGuard < now - r.lastSeen)
    {v : LearnVerdict} (h : t.learn c now mono = some (v, t')) :
    t'.Settling c.nodeId now c.nextHop c.hops := by
  cases learn_cases h with
  | self hself => exact absurd hself hown
  | committed v t' _ _ hcommit => exact settling_commit hroom le_rfl hcommit
  | keptEqual old _ hold _ _ hg _ => exact absurd (hlate old hold) (not_lt.mpr hg)
  | settling old _ hold hlt hg =>
    let q : Settle := ⟨now + settleAfter, c.nextHop, c.hops, c.rssi.getD noRssi⟩
    have hq : (t.sharpened c now).get? c.nodeId = some q := by
      rw [get?_sharpened, if_pos rfl, hp]
      rfl
    exact .waiting old q hold hq le_rfl hg hlt
  | keptWorse old _ hold _ hg => exact absurd (hlate old hold) (not_lt.mpr hg)

/-- A later copy of the same flood: what has settled gets no longer, and is no longer than
the copy. -/
theorem Settling.learn (hs : t.Settling x t₁ m k) (hroom : 0 < t.maxHot) {c : Copy}
    (hx : c.nodeId = x) (hown : t.ownId ≠ some x) {now mono : ℚ} (h₁ : t₁ ≤ now)
    (h₂ : now ≤ t₁ + (floodGuard - 1)) {v : LearnVerdict}
    (h : t.learn c now mono = some (v, t')) :
    ∃ m' k', t'.Settling x t₁ m' k' ∧ (m' = m ∧ k' = k ∨ m' = c.nextHop ∧ k' = c.hops) ∧
      k' ≤ k ∧ k' ≤ c.hops := by
  subst hx
  cases hs with
  | held r hr hp hdate =>
    have hguard : now - r.lastSeen ≤ floodGuard := by linarith
    cases learn_cases h with
    | self hself => exact absurd hself hown
    | committed v t' _ hc hcommit =>
      refine ⟨_, _, settling_commit hroom h₁ hcommit, Or.inr ⟨rfl, rfl⟩, ?_, le_rfl⟩
      rw [hr] at hc
      cases hc with
      | shorter old hlt => exact hlt.le
      | refreshed old heq _ => exact heq.le
      | swapped old heq _ _ => exact heq.le
    | keptEqual old _ hold heq _ _ _ =>
      obtain rfl := Option.some.inj (hr.symm.trans hold)
      refine ⟨_, _, .held r hr ?_ hdate, Or.inl ⟨rfl, rfl⟩, le_rfl, heq.ge⟩
      show (t.pending.erase c.nodeId).get? c.nodeId = none
      rw [OrderedDict.get?_erase, if_pos rfl]
    | settling old _ hold _ hg =>
      obtain rfl := Option.some.inj (hr.symm.trans hold)
      exact absurd hg (not_lt.mpr hguard)
    | keptWorse old _ hold hlt _ =>
      obtain rfl := Option.some.inj (hr.symm.trans hold)
      exact ⟨_, _, .held r hr hp hdate, Or.inl ⟨rfl, rfl⟩, le_rfl, hlt.le⟩
  | waiting r q hr hq hcommitAt hdate hlonger =>
    have hguard : floodGuard < now - r.lastSeen := by linarith
    cases learn_cases h with
    | self hself => exact absurd hself hown
    | committed v t' _ hc hcommit =>
      refine ⟨_, _, settling_commit hroom h₁ hcommit, Or.inr ⟨rfl, rfl⟩, ?_, le_rfl⟩
      rw [hr] at hc
      cases hc with
      | shorter old hlt => omega
      | refreshed old heq _ => omega
      | swapped old heq _ _ => omega
    | keptEqual old _ hold _ _ hg _ =>
      obtain rfl := Option.some.inj (hr.symm.trans hold)
      exact absurd hguard (not_lt.mpr hg)
    | settling old _ hold hlt _ =>
      obtain rfl := Option.some.inj (hr.symm.trans hold)
      have hget := get?_sharpened t c now c.nodeId
      rw [if_pos rfl, hq] at hget
      cases hsharp : sharpen (some q) c now with
      | none =>
        rw [hsharp] at hget
        refine ⟨_, _, .waiting r q hr hget hcommitAt hdate hlonger, Or.inl ⟨rfl, rfl⟩, le_rfl, ?_⟩
        by_contra hbetter
        simp [sharpen, not_le.mp hbetter] at hsharp
      | some p =>
        rw [hsharp] at hget
        have hp : p = ⟨q.commitAt, c.nextHop, c.hops, c.rssi.getD noRssi⟩ ∧ c.hops ≤ q.hops := by
          rw [sharpen] at hsharp
          split_ifs at hsharp with hbetter
          refine ⟨(Option.some.inj hsharp).symm, ?_⟩
          rcases hbetter with hlt' | ⟨heq, -⟩
          · exact hlt'.le
          · exact heq.le
        obtain ⟨rfl, hle⟩ := hp
        exact ⟨_, _, .waiting r _ hr hget hcommitAt hdate hlt, Or.inr ⟨rfl, rfl⟩, hle, le_rfl⟩
    | keptWorse old _ hold _ hg =>
      obtain rfl := Option.some.inj (hr.symm.trans hold)
      exact absurd hguard (not_lt.mpr hg)

/-- A tick that does not lose the route keeps what has settled. -/
theorem Settling.tick (hs : t.Settling x t₁ m k) {clk : TickClock} (h : t.tick clk = some t')
    (hkeep : (t'.hot.get? x).isSome) : t'.Settling x t₁ m k := by
  obtain ⟨e', he'⟩ := Option.isSome_iff_exists.mp hkeep
  cases hs with
  | held r hr hp hdate =>
    cases tick_cases h x with
    | idle _ hp' hh _ =>
      have hr' := hh e' he'
      obtain rfl := Option.some.inj (hr.symm.trans hr')
      exact .held r he' (hp'.trans hp) hdate
    | committed q e hq _ _ _ _ _ => cases hp.symm.trans hq
  | waiting r q hr hq hcommitAt hdate hlonger =>
    cases tick_cases h x with
    | idle _ hp' hh _ =>
      have hr' := hh e' he'
      obtain rfl := Option.some.inj (hr.symm.trans hr')
      exact .waiting r q he' (hp'.trans hq) hcommitAt hdate hlonger
    | committed q' e hq' hdue he hp' hh _ =>
      obtain rfl := Option.some.inj (hq.symm.trans hq')
      obtain rfl := hh e' he'
      obtain ⟨hnh, hhops, -, hseen⟩ := pack_eq_some_iff.mp he
      rw [← hnh, ← hhops]
      refine .held e' he' hp' ?_
      have hlt := lt_pyInt_add_one clk.wall
      have hcast : (e'.lastSeen : ℚ) = pyInt clk.wall := by exact_mod_cast hseen
      rw [hcast]
      have hafter : (0 : ℚ) < settleAfter := by norm_num [settleAfter]
      linarith

/-- Other traffic that does not lose the route keeps what has settled. -/
theorem Settling.leaves (hs : t.Settling x t₁ m k) (hl : t.Leaves x t')
    (hkeep : (t'.hot.get? x).isSome) : t'.Settling x t₁ m k := by
  obtain ⟨e, he⟩ := Option.isSome_iff_exists.mp hkeep
  have hold := hl.hot_eq hs.hot_isSome he
  cases hs with
  | held r hr hp hdate =>
    obtain rfl := Option.some.inj (hr.symm.trans hold)
    exact .held r he (hl.pending.trans hp) hdate
  | waiting r q hr hq hcommitAt hdate hlonger =>
    obtain rfl := Option.some.inj (hr.symm.trans hold)
    exact .waiting r q he (hl.pending.trans hq) hcommitAt hdate hlonger

end RouteTable
end Beachedmesh
