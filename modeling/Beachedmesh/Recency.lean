import Beachedmesh.Bystander
import Beachedmesh.Support.Lru

/-!
# The hot table is a least-recently-used cache

A use of a node is a commit of its route, by `learn` or when its settle is due, or a
`next_hop` that answers. Along every run the hot table holds what the abstract cache
holds after the same uses and the removals of `expire`.
-/
namespace Beachedmesh
open Machine

/-- The verdicts under which `learn` commits. -/
def LearnVerdict.Commits : LearnVerdict → Bool
  | .new | .better | .refreshed => true
  | .self | .settling | .kept => false

namespace RouteTable

/-- The nodes whose settle is due. -/
def due (t : RouteTable) (now : ℚ) : List NodeId :=
  (t.pending.entries.filter fun e => decide (e.2.commitAt ≤ now)).map Prod.fst

/-- The nodes an operation used or removed, in order, from what it answered. -/
def accesses (t : RouteTable) : RouteOp → RouteOut → List (Lru.Access NodeId)
  | .learn c _ _, .learned v => if v.Commits then [.use c.nodeId] else []
  | .nextHop n, .found (some _) => [.use n]
  | .tick clk, _ => (t.due clk.wall).map .use
  | .expire _ _, .expired dead => dead.map .drop
  | _, _ => []

/-- An operation, and the nodes it used or removed. -/
def noted (t : RouteTable) (op : RouteOp) : Option (RouteTable × List (Lru.Access NodeId)) :=
  (t.step op).map fun r => (r.1, t.accesses op r.2)

variable {t t' : RouteTable} {op : RouteOp} {o : RouteOut} {n : NodeId}
  {h : List (Lru.Access NodeId)}

theorem noted_eq_some_iff :
    t.noted op = some (t', h) ↔ ∃ o, t.step op = some (t', o) ∧ h = t.accesses op o := by
  simp only [noted, Option.map_eq_some_iff, Prod.exists, Prod.mk.injEq]
  constructor
  · rintro ⟨u, o, hs, rfl, rfl⟩
    exact ⟨o, hs, rfl⟩
  · rintro ⟨o, hs, rfl⟩
    exact ⟨t', o, hs, rfl, rfl⟩

/-! ### One operation -/

theorem keys_place (t : RouteTable) (n : NodeId) (e : Packed) :
    (t.place n e).hot.keys = Lru.touch t.maxHot t.hot.keys n := by
  rw [place, OrderedDict.keys_evict, ← OrderedDict.length_keys, OrderedDict.keys_reinsert]
  rfl

theorem keys_commit {c : Copy} {now mono : ℚ} (hx : t.commit c now mono = some t') :
    t'.hot.keys = Lru.touch t.maxHot t.hot.keys c.nodeId := by
  obtain ⟨e, -, rfl⟩ := commit_eq_some_iff.mp hx
  exact keys_place t c.nodeId e

theorem Commits.commits {c : Copy} {now : ℚ} {old : Option Packed} {v : LearnVerdict}
    (hc : Commits c now old v) : v.Commits = true := by
  cases hc <;> rfl

theorem keys_learn {c : Copy} {now mono : ℚ} {v : LearnVerdict}
    (hx : t.learn c now mono = some (v, t')) :
    t'.hot.keys = (t.accesses (.learn c now mono) (.learned v)).foldl (Lru.access t.maxHot)
      t.hot.keys := by
  cases learn_cases hx with
  | committed v _ _ hcommits hcommit =>
    rw [accesses, if_pos hcommits.commits]
    exact keys_commit (t := t.dropPending c.nodeId) hcommit
  | self _ => rfl
  | keptEqual _ _ _ _ _ _ _ => rfl
  | settling _ _ _ _ _ => rfl
  | keptWorse _ _ _ _ _ => rfl

/-- A hit moves its node to the end of a table that fits. -/
theorem keys_hit (hsize : t.hot.size ≤ t.maxHot) {e : Packed} (he : t.hot.get? n = some e) :
    (t.hot.reinsert n e).keys = Lru.touch t.maxHot t.hot.keys n := by
  have hmem : n ∈ t.hot.keys := OrderedDict.mem_keys_iff.mpr ⟨e, he⟩
  have hlen : (t.hot.reinsert n e).keys.length = t.hot.size := by
    rw [OrderedDict.length_keys, OrderedDict.reinsert,
      OrderedDict.size_insert_of_not_mem e (OrderedDict.not_mem_keys_erase t.hot n),
      OrderedDict.size_erase_add_one hmem]
  rw [OrderedDict.keys_reinsert] at hlen ⊢
  exact (Lru.touch_of_le (hlen.trans_le hsize)).symm

theorem keys_nextHop (hsize : t.hot.size ≤ t.maxHot) {a : Option Mac}
    (hx : t.nextHop n = some (a, t')) :
    t'.hot.keys = (t.accesses (.nextHop n) (.found a)).foldl (Lru.access t.maxHot) t.hot.keys := by
  cases nextHop_cases hx with
  | hit e he => exact keys_hit hsize he
  | cold r _ _ _ hput =>
    obtain ⟨e, -, rfl⟩ := putHot_eq_some_iff.mp hput
    exact keys_place t n e
  | miss _ _ => rfl

theorem keys_settle {now mono : ℚ} (hx : t.settle now mono = some t') :
    t'.hot.keys = ((t.due now).map .use).foldl (Lru.access t.maxHot) t.hot.keys := by
  rw [settle] at hx
  rw [due]
  generalize t.pending.entries.filter (fun e => decide (e.2.commitAt ≤ now)) = due at hx ⊢
  induction due generalizing t with
  | nil =>
    obtain rfl : t = t' := Option.some.inj hx
    rfl
  | cons e due ih =>
    rw [List.foldlM_cons] at hx
    obtain ⟨u, hone, hrest⟩ := Option.bind_eq_some_iff.mp hx
    have hroom : u.maxHot = t.maxHot := by
      obtain ⟨k, -, rfl⟩ := commit_eq_some_iff.mp hone
      rfl
    rw [ih hrest, hroom, keys_commit hone]
    rfl

theorem keys_expire (t : RouteTable) (now nowCold : ℚ) :
    (t.expire now nowCold).2.hot.keys =
      ((t.expire now nowCold).1.map .drop).foldl (Lru.access t.maxHot) t.hot.keys := by
  rw [Lru.foldl_drop]
  exact OrderedDict.keys_filter_not t.hot _

theorem keys_step (hsize : t.hot.size ≤ t.maxHot) (hop : op.isWarm = false)
    (hx : t.step op = some (t', o)) :
    t'.hot.keys = (t.accesses op o).foldl (Lru.access t.maxHot) t.hot.keys := by
  cases step_cases hx with
  | learn hl => exact keys_learn hl
  | nextHop hl => exact keys_nextHop hsize hl
  | tick ht =>
    obtain ⟨u, hu, rfl⟩ := Option.map_eq_some_iff.mp ht
    have hkeys : u.hot.keys = _ := keys_settle hu
    exact hkeys
  | flush _ => rfl
  | expire now nowCold => exact keys_expire t now nowCold
  | warm _ => cases hop

/-! ### Runs -/

/-- Along a run the hot table is the cache of its uses and removals. -/
theorem keys_exec {own : Option NodeId} {ttl : ℚ} {cold : Option ColdStore} {maxHot : ℕ}
    {ops : List RouteOp} {hs : List (List (Lru.Access NodeId))}
    (hx : exec noted (new own ttl cold maxHot) ops = some (t, hs))
    (hwarm : ∀ op ∈ ops, op.isWarm = false) :
    t.maxHot = maxHot ∧ t.hot.keys = Lru.run maxHot hs.flatten := by
  induction ops using List.reverseRecOn generalizing t hs with
  | nil =>
    obtain ⟨rfl, rfl⟩ := Prod.mk.inj (Option.some.inj hx)
    exact ⟨rfl, rfl⟩
  | append_singleton ops op ih =>
    obtain ⟨u, hs₁, hs₂, hpre, hlast, rfl⟩ := exec_append_iff.mp hx
    obtain ⟨u', h, os, hone, hnil, rfl⟩ := exec_cons_iff.mp hlast
    obtain ⟨rfl, rfl⟩ := Prod.mk.inj (Option.some.inj hnil)
    obtain ⟨hroom, hkeys⟩ := ih hpre fun op hop => hwarm op (List.mem_append_left _ hop)
    obtain ⟨o, hstep, rfl⟩ := noted_eq_some_iff.mp hone
    have hsize : u.hot.size ≤ u.maxHot := by
      rw [← OrderedDict.length_keys, hkeys, hroom]
      exact Lru.length_run_le maxHot _
    refine ⟨(config_step hstep).maxHot_eq.trans hroom, ?_⟩
    rw [keys_step hsize (hwarm op (by simp)) hstep, hkeys, hroom, List.flatten_append,
      List.flatten_singleton, Lru.run_append]

/-- An operation uses nodes or removes nodes. -/
theorem accesses_uses_or_drops (t : RouteTable) (op : RouteOp) (o : RouteOut) :
    (∃ ks : List NodeId, t.accesses op o = ks.map .use) ∨
      ∃ dead : List NodeId, t.accesses op o = dead.map .drop := by
  unfold accesses
  split
  · split
    · exact Or.inl ⟨[_], rfl⟩
    · exact Or.inl ⟨[], rfl⟩
  · exact Or.inl ⟨[_], rfl⟩
  · exact Or.inl ⟨_, rfl⟩
  · exact Or.inr ⟨_, rfl⟩
  · exact Or.inl ⟨[], rfl⟩

/-- The hot table after a history: the bounded cache, in the order of last use, with
every node whose later rivals fit. -/
structure IsLru (maxHot : ℕ) (h : List (Lru.Access NodeId)) (t : RouteTable) : Prop where
  cache : t.hot.keys = Lru.run maxHot h
  bounded : t.hot.size ≤ maxHot
  ordered : t.hot.keys.Sublist (Lru.recency h)
  retained : ∀ before x since, h = before ++ .use x :: since → .drop x ∉ since →
    ((Lru.uses since).toFinset.erase x).card < maxHot → x ∈ t.hot.keys

theorem isLru_of_keys {maxHot : ℕ} (hkeys : t.hot.keys = Lru.run maxHot h) :
    t.IsLru maxHot h where
  cache := hkeys
  bounded := by
    rw [← OrderedDict.length_keys, hkeys]
    exact Lru.length_run_le maxHot h
  ordered := hkeys ▸ Lru.run_sublist_recency maxHot h
  retained := by
    rintro before x since rfl hdrop hfew
    rw [hkeys]
    exact Lru.mem_run_of_few_others hdrop hfew

/-- What an operation evicts, expired nodes apart, was last used before all it leaves. -/
theorem evicted_least_recent {maxHot : ℕ} {g : List (Lru.Access NodeId)} {u : RouteTable}
    (hu : u.hot.keys = Lru.run maxHot h) (ht : t.hot.keys = Lru.run maxHot (h ++ g))
    (hx : u.noted op = some (t, g)) {y z : NodeId} (hy : y ∈ u.hot.keys ∨ .use y ∈ g)
    (hgone : y ∉ t.hot.keys) (hkept : .drop y ∉ g) (hz : z ∈ t.hot.keys) :
    [y, z].Sublist (Lru.recency (h ++ g)) := by
  obtain ⟨o, -, rfl⟩ := noted_eq_some_iff.mp hx
  rw [hu] at hy
  rw [ht] at hgone hz
  rcases u.accesses_uses_or_drops op o with ⟨ks, hks⟩ | ⟨dead, hdead⟩
  · rw [hks] at hy hgone hz ⊢
    exact Lru.evicted_first (hy.imp_right (by simp)) hgone hz
  · rw [hdead] at hy hgone hkept
    have hin : y ∈ Lru.run maxHot h := hy.resolve_right (by simp)
    rw [Lru.run_append, Lru.foldl_drop, List.mem_filter, not_and] at hgone
    exact absurd (by simpa using hgone hin) (by simpa using hkept)

/-- For every run without `warm`: the hot table is the cache of the run's uses and
removals, and what a call evicts was used before everything that it leaves. -/
theorem hot_is_lru {own : Option NodeId} {ttl : ℚ} {cold : Option ColdStore} {maxHot : ℕ}
    {ops : List RouteOp} {hs : List (List (Lru.Access NodeId))}
    (hx : exec noted (new own ttl cold maxHot) ops = some (t, hs))
    (hwarm : ∀ op ∈ ops, op.isWarm = false) :
    t.IsLru maxHot hs.flatten ∧
    ∀ pre op post u gs w g, ops = pre ++ op :: post →
      exec noted (new own ttl cold maxHot) pre = some (u, gs) → u.noted op = some (w, g) →
      ∀ y, y ∈ u.hot.keys ∨ .use y ∈ g → y ∉ w.hot.keys → .drop y ∉ g →
      ∀ z ∈ w.hot.keys, [y, z].Sublist (Lru.recency (gs.flatten ++ g)) := by
  refine ⟨isLru_of_keys (keys_exec hx hwarm).2, ?_⟩
  intro pre op post u gs w g hops hpre hone y hy hgone hkept z hz
  have hpre_warm : ∀ o ∈ pre, o.isWarm = false := fun o ho => hwarm o (by simp [hops, ho])
  have hnext : exec noted (new own ttl cold maxHot) (pre ++ [op]) = some (w, gs ++ [g]) :=
    exec_append_iff.mpr ⟨u, gs, [g], hpre, exec_cons_iff.mpr ⟨w, g, [], hone, rfl, rfl⟩, rfl⟩
  have hw : w.hot.keys = Lru.run maxHot (gs.flatten ++ g) := by
    have hkeys := (keys_exec hnext fun o ho => hwarm o ?_).2
    · rwa [List.flatten_append, List.flatten_singleton] at hkeys
    · rw [hops]
      simp only [List.mem_append, List.mem_cons, List.not_mem_nil, or_false] at ho ⊢
      exact ho.imp_right Or.inl
  exact evicted_least_recent (keys_exec hpre hpre_warm).2 hw hone hy hgone hkept hz

/-- Room for two: node 1 is looked up again before node 3 is learnt. -/
def threeLearnt : List RouteOp :=
  [.learn ⟨nodeIdOf 1, macOf 1, 1, none, none, none, ""⟩ 100 0,
    .learn ⟨nodeIdOf 2, macOf 2, 1, none, none, none, ""⟩ 101 1, .nextHop (nodeIdOf 1),
    .learn ⟨nodeIdOf 3, macOf 3, 1, none, none, none, ""⟩ 102 2]

theorem hot_is_lru_three : ∃ t hs,
    exec noted (new none defaultTtl none 2) threeLearnt = some (t, hs) ∧
    t.IsLru 2 hs.flatten ∧ t.hot.keys = [nodeIdOf 1, nodeIdOf 3] := by
  have hrun : (exec noted (new none defaultTtl none 2) threeLearnt).map (fun r =>
      decide (r.1.hot.keys = [nodeIdOf 1, nodeIdOf 3])) = some true := by decide +kernel
  obtain ⟨⟨t, hs⟩, hx, hkeys⟩ := Option.map_eq_some_iff.mp hrun
  exact ⟨t, hs, hx, (hot_is_lru hx (by decide)).1, of_decide_eq_true hkeys⟩

end RouteTable

end Beachedmesh
