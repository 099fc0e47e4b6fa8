import Beachedmesh.Eviction
import Beachedmesh.Bystander
import Beachedmesh.Support.Positions

/-!
# What a warmed table keeps

`warm` places the rows of the disk one by one, the most recently heard first, and the
table evicts what was placed first. So its order is the wrong way round: the first
warmed route to go is the one heard last.
-/
namespace Beachedmesh
open Machine

namespace ColdStore

variable {s : ColdStore}

/-- The disk has `x` heard after `y`. -/
def HeardAfter (s : ColdStore) (x y : NodeId) : Prop :=
  ∃ r r', s.rows.get? x = some r ∧ s.rows.get? y = some r' ∧ r'.lastSeen < r.lastSeen

theorem HeardAfter.asymm (x y : NodeId) (h : s.HeardAfter x y) : ¬ s.HeardAfter y x := by
  obtain ⟨r, r', hr, hr', hlt⟩ := h
  rintro ⟨q', q, hq', hq, hgt⟩
  obtain rfl := Option.some.inj (hr.symm.trans hq)
  obtain rfl := Option.some.inj (hr'.symm.trans hq')
  exact lt_asymm hlt hgt

/-- The nodes on disk, the most recently heard first. -/
def ranked (s : ColdStore) : List NodeId := (s.recent s.rows.size).map Prod.fst

/-- What the query without its limit returns. -/
theorem recent_size (s : ColdStore) : s.recent s.rows.size =
    s.rows.entries.mergeSort (fun a b => decide (b.2.lastSeen ≤ a.2.lastSeen)) :=
  List.take_of_length_le (List.length_mergeSort _).le

theorem map_fst_recent (s : ColdStore) (limit : ℕ) :
    (s.recent limit).map Prod.fst = s.ranked.take limit := by
  rw [ranked, recent_size, recent, List.map_take]

theorem ranked_perm (s : ColdStore) : s.ranked.Perm s.rows.keys := by
  rw [ranked, recent_size]
  exact (List.mergeSort_perm _ _).map Prod.fst

theorem ranked_pairwise (hdist : (s.rows.entries.map fun e => e.2.lastSeen).Nodup) :
    s.ranked.Pairwise s.HeardAfter := by
  rw [ranked, recent_size, List.pairwise_map]
  set le := fun a b : NodeId × Row => decide (b.2.lastSeen ≤ a.2.lastSeen)
  have hsorted : (s.rows.entries.mergeSort le).Pairwise fun a b => le a b :=
    List.pairwise_mergeSort
      (fun a b c hab hbc => decide_eq_true ((of_decide_eq_true hbc).trans (of_decide_eq_true hab)))
      (fun a b => by simpa [le] using le_total b.2.lastSeen a.2.lastSeen) _
  have hperm := List.mergeSort_perm s.rows.entries le
  have hne := List.pairwise_map.mp ((hperm.map fun e => e.2.lastSeen).nodup_iff.mpr hdist)
  refine (hsorted.and hne).imp_of_mem fun {a b} ha hb hab => ⟨a.2, b.2, ?_, ?_, ?_⟩
  · exact OrderedDict.get?_eq_some_iff.mpr (hperm.mem_iff.mp ha)
  · exact OrderedDict.get?_eq_some_iff.mpr (hperm.mem_iff.mp hb)
  · exact lt_of_le_of_ne (of_decide_eq_true hab.1) hab.2.symm

end ColdStore

namespace RouteTable

variable {t t' t₀ t₁ t₂ : RouteTable} {s : ColdStore}

/-! ### The order of the hot table -/

/-- The hot table holds the last of the nodes placed in it, as many as it has room for. -/
def HoldsLast (t : RouteTable) (placed : List NodeId) : Prop :=
  t.hot.keys = placed.drop (placed.length - t.maxHot)

theorem HoldsLast.place {placed : List NodeId} (h : t.HoldsLast placed) {n : NodeId}
    (hn : n ∉ t.hot.keys) (e : Packed) : (t.place n e).HoldsLast (placed ++ [n]) :=
  OrderedDict.keys_evict_reinsert h hn e

theorem HoldsLast.learn {placed : List NodeId} (h : t.HoldsLast placed) {c : Copy} {now mono : ℚ}
    (hl : t.learn c now mono = some (.new, t')) : t'.HoldsLast (placed ++ [c.nodeId]) := by
  cases learn_cases hl with
  | committed v t' _ hv hcommit =>
    have hnone : t.hot.get? c.nodeId = none := by
      generalize t.hot.get? c.nodeId = old at hv
      cases hv
      rfl
    obtain ⟨e, -, rfl⟩ := commit_eq_some_iff.mp hcommit
    exact h.place (OrderedDict.get?_eq_none_iff.mp hnone) e

/-- A loop that places distinct nodes, none of them hot. -/
theorem HoldsLast.warming {es : List (NodeId × Row)} (hnd : (es.map Prod.fst).Nodup)
    {placed : List NodeId} (h : t.HoldsLast placed) (hnew : ∀ n ∈ es.map Prod.fst, n ∉ placed)
    (hx : es.foldlM (fun t e => t.putHot e.1 e.2.nextHop e.2.hops e.2.rssi e.2.lastSeen) t =
      some t') : t'.HoldsLast (placed ++ es.map Prod.fst) := by
  induction es generalizing t placed with
  | nil =>
    obtain rfl := Option.some.inj hx
    simpa using h
  | cons e es ih =>
    rw [List.foldlM_cons] at hx
    obtain ⟨u, hput, hrest⟩ := Option.bind_eq_some_iff.mp hx
    obtain ⟨k, -, rfl⟩ := putHot_eq_some_iff.mp hput
    rw [List.map_cons, List.nodup_cons] at hnd
    have hhot : e.1 ∉ t.hot.keys := by
      rw [h]
      exact fun hmem => hnew e.1 (by simp) (List.mem_of_mem_drop hmem)
    rw [List.map_cons, ← List.singleton_append, ← List.append_assoc]
    refine ih hnd.2 (h.place hhot k) (fun n hn hmem => ?_) hrest
    rcases List.mem_append.mp hmem with hmem | hmem
    · exact hnew n (List.mem_cons_of_mem _ hn) hmem
    · rw [List.mem_singleton] at hmem
      exact hnd.1 (hmem ▸ hn)

theorem HoldsLast.warm (hcold : t₀.cold = some s) (hhot : t₀.hot = OrderedDict.empty)
    {limit : Option ℕ} (hlimit : limit ≠ some 0) (hw : t₀.warm limit = some t₁) :
    t₁.HoldsLast (s.ranked.take (limit.getD t₀.maxHot)) := by
  have hempty : t₀.HoldsLast [] := by
    rw [HoldsLast, hhot, OrderedDict.keys_empty, List.drop_nil]
  have hnd : ((s.recent (limit.getD t₀.maxHot)).map Prod.fst).Nodup := by
    rw [ColdStore.map_fst_recent]
    exact (s.ranked_perm.nodup_iff.mpr s.rows.nodup_keys).sublist (List.take_sublist _ _)
  rw [← ColdStore.map_fst_recent, ← List.nil_append ((s.recent _).map Prod.fst)]
  refine hempty.warming hnd (fun _ _ hn => by cases hn) ?_
  simp only [RouteTable.warm, hcold] at hw
  cases limit with
  | none => exact hw
  | some k =>
    cases k with
    | zero => exact absurd rfl hlimit
    | succ k => exact hw

/-- Announces of nodes not in the table are placed one after the other. -/
theorem HoldsLast.learns {placed : List NodeId} (h : t₁.HoldsLast placed) {ops : List RouteOp}
    {os : List RouteOut} (hx : exec step t₁ ops = some (t₂, os))
    (hnew : ∀ o ∈ os, o = .learned .new) :
    t₂.HoldsLast (placed ++ ops.filterMap RouteOp.learnt?) ∧
      (ops.filterMap RouteOp.learnt?).length = ops.length := by
  induction ops generalizing t₁ placed os with
  | nil =>
    obtain ⟨rfl, -⟩ := Prod.mk.inj (Option.some.inj hx)
    simpa using h
  | cons op ops ih =>
    obtain ⟨u, o, os, hone, hrest, rfl⟩ := exec_cons_iff.mp hx
    obtain rfl := hnew o (by simp)
    cases step_cases hone with
    | @learn c now mono _ _ hl =>
      obtain ⟨hlast, hlen⟩ := ih (h.learn hl) hrest fun o ho => hnew o (by simp [ho])
      have hcons : (RouteOp.learn c now mono :: ops).filterMap RouteOp.learnt? =
          c.nodeId :: ops.filterMap RouteOp.learnt? := rfl
      rw [hcons, List.length_cons, List.length_cons, hlen]
      exact ⟨by simpa using hlast, rfl⟩

/-! ### Recency -/

/-- The number of rows that `warm` places. -/
def loads (t : RouteTable) (s : ColdStore) (limit : Option ℕ) : ℕ :=
  min (limit.getD t.maxHot) s.rows.size

/-- The hot table holds `k` nodes of the disk, all heard after the rest of it. -/
structure HoldsLatest (t : RouteTable) (s : ColdStore) (k : ℕ) : Prop where
  size_eq : t.hot.size = k
  onDisk : ∀ n ∈ t.hot.keys, n ∈ s.rows.keys
  latest : ∀ x ∈ t.hot.keys, ∀ y ∈ s.rows.keys, y ∉ t.hot.keys → s.HeardAfter x y

/-- A hot node that was neither evicted nor learned again. -/
def Stays (t₁ : RouteTable) (ops : List RouteOp) (t₂ : RouteTable) (n : NodeId) : Prop :=
  n ∈ t₁.hot.keys ∧ n ∈ t₂.hot.keys ∧ n ∉ learntNodes ops

theorem holdsLatest_iff {L : ℕ} (hroom : 1 ≤ t₁.maxHot)
    (hdist : (s.rows.entries.map fun e => e.2.lastSeen).Nodup)
    (h : t₁.HoldsLast (s.ranked.take L)) :
    t₁.HoldsLatest s (min L (min t₁.maxHot s.rows.size)) ↔ min L s.rows.size ≤ t₁.maxHot := by
  have hlen : s.ranked.length = s.rows.size := by
    rw [s.ranked_perm.length_eq, OrderedDict.length_keys]
  have hnd : s.ranked.Nodup := s.ranked_perm.nodup_iff.mpr s.rows.nodup_keys
  have htake : (s.ranked.take L).length = min L s.rows.size := by rw [List.length_take, hlen]
  have hpair := ColdStore.ranked_pairwise hdist
  rw [HoldsLast, htake] at h
  constructor
  · intro hl
    -- the rows loaded first are on disk, and no longer hot
    have hdrop : ∀ x ∈ (s.ranked.take L).drop (min L s.rows.size - t₁.maxHot),
        ∀ y ∈ (s.ranked.take L).take (min L s.rows.size - t₁.maxHot), s.HeardAfter x y := by
      intro x hx y hy
      rw [← h] at hx
      refine hl.latest x hx y ?_ ?_
      · exact s.ranked_perm.mem_iff.mp (List.mem_of_mem_take (List.mem_of_mem_take hy))
      · rw [h]
        exact fun hmem => List.disjoint_take_drop (hnd.sublist (List.take_sublist _ _)) le_rfl
          hy hmem
    have hcut := ((hpair.sublist (List.take_sublist _ _)).forall_drop_take_iff
      ColdStore.HeardAfter.asymm _).mp hdrop
    rw [htake] at hcut
    omega
  · intro hle
    rw [Nat.sub_eq_zero_of_le hle, List.drop_zero] at h
    refine ⟨?_, fun n hn => ?_, fun x hx y hy hhot => ?_⟩
    · rw [← OrderedDict.length_keys, h, htake]
      omega
    · rw [h] at hn
      exact s.ranked_perm.mem_iff.mp (List.mem_of_mem_take hn)
    · rw [h] at hx hhot
      have hy' := s.ranked_perm.mem_iff.mpr hy
      rw [← List.take_append_drop L s.ranked] at hpair hy'
      exact (List.pairwise_append.mp hpair).2.2 x hx y
        ((List.mem_append.mp hy').resolve_left hhot)

/-- The nodes placed last stay. -/
theorem stays_iff {ops : List RouteOp}
    (h : t₂.HoldsLast (t₁.hot.keys ++ ops.filterMap RouteOp.learnt?)) {n : NodeId} :
    t₁.Stays ops t₂ n ↔ n ∈ t₁.hot.keys.drop
      ((t₁.hot.keys ++ ops.filterMap RouteOp.learnt?).length - t₂.maxHot) := by
  have hnd := t₂.hot.nodup_keys
  rw [HoldsLast, List.drop_append] at h
  set i := (t₁.hot.keys ++ ops.filterMap RouteOp.learnt?).length - t₂.maxHot
  rw [h] at hnd
  rw [Stays, h, List.mem_append, learntNodes, List.mem_toFinset]
  constructor
  · rintro ⟨-, hstay | hagain, hnot⟩
    · exact hstay
    · exact absurd (List.mem_of_mem_drop hagain) hnot
  · intro hn
    refine ⟨List.mem_of_mem_drop hn, Or.inl hn, fun hagain => ?_⟩
    have hlt : i < t₁.hot.keys.length := by
      by_contra hge
      rw [List.drop_of_length_le (not_lt.mp hge)] at hn
      cases hn
    rw [Nat.sub_eq_zero_of_le hlt.le, List.drop_zero] at hnd
    exact (List.nodup_append.mp hnd).2.2 n hn n hagain rfl

/-- The nodes that stay were heard after those that go only if all stay, or all go. -/
theorem stays_latest_iff {ops : List RouteOp} (hpair : t₁.hot.keys.Pairwise s.HeardAfter)
    (h : t₂.HoldsLast (t₁.hot.keys ++ ops.filterMap RouteOp.learnt?)) :
    (∀ x y, t₁.Stays ops t₂ x → y ∈ t₁.hot.keys → ¬ t₁.Stays ops t₂ y → s.HeardAfter x y) ↔
      t₁.hot.size + (ops.filterMap RouteOp.learnt?).length ≤ t₂.maxHot ∨
        t₂.maxHot ≤ (ops.filterMap RouteOp.learnt?).length := by
  have hnd := t₁.hot.nodup_keys
  have hcut := hpair.forall_drop_take_iff ColdStore.HeardAfter.asymm
    ((t₁.hot.keys ++ ops.filterMap RouteOp.learnt?).length - t₂.maxHot)
  simp only [stays_iff h]
  set i := (t₁.hot.keys ++ ops.filterMap RouteOp.learnt?).length - t₂.maxHot with hi
  have hgone {y : NodeId} : y ∈ t₁.hot.keys ∧ y ∉ t₁.hot.keys.drop i ↔ y ∈ t₁.hot.keys.take i := by
    have hmem : y ∈ t₁.hot.keys ↔ y ∈ t₁.hot.keys.take i ∨ y ∈ t₁.hot.keys.drop i := by
      rw [← List.mem_append, List.take_append_drop]
    have hdis := List.disjoint_take_drop (m := i) (n := i) hnd le_rfl
    constructor
    · rintro ⟨hy, hnot⟩
      exact (hmem.mp hy).resolve_right hnot
    · intro hy
      exact ⟨List.mem_of_mem_take hy, fun hmem => hdis hy hmem⟩
  have hiff : (∀ x y, x ∈ t₁.hot.keys.drop i → y ∈ t₁.hot.keys → y ∉ t₁.hot.keys.drop i →
      s.HeardAfter x y) ↔
      ∀ x ∈ t₁.hot.keys.drop i, ∀ y ∈ t₁.hot.keys.take i, s.HeardAfter x y := by
    constructor
    · intro hall x hx y hy
      exact hall x y hx (hgone.mpr hy).1 (hgone.mpr hy).2
    · intro hall x y hx hy hnot
      exact hall x hx y (hgone.mp ⟨hy, hnot⟩)
  rw [hiff, hcut]
  simp only [List.length_append, OrderedDict.length_keys] at hi ⊢
  omega

end RouteTable

open RouteTable

/-- Warm an empty table from a disk with distinct times, then learn nodes that are not in
it. The warmed table holds the rows heard last, and those of its nodes that stay were heard
after those that go, exactly when no more rows are loaded than the table holds, and the
announces evict none of them or replace the table whole. -/
theorem warm_latest_iff {t₀ t₁ t₂ : RouteTable} {s : ColdStore} (hcold : t₀.cold = some s)
    (hhot : t₀.hot = OrderedDict.empty) (hroom : 1 ≤ t₀.maxHot)
    (hdist : (s.rows.entries.map fun e => e.2.lastSeen).Nodup) {limit : Option ℕ}
    (hlimit : limit ≠ some 0) (hwarm : t₀.warm limit = some t₁) {ops : List RouteOp}
    {os : List RouteOut} (hx : exec step t₁ ops = some (t₂, os))
    (hnew : ∀ o ∈ os, o = .learned .new) :
    (t₁.HoldsLatest s (min (limit.getD t₀.maxHot) (min t₀.maxHot s.rows.size)) ∧
      ∀ x y, t₁.Stays ops t₂ x → y ∈ t₁.hot.keys → ¬ t₁.Stays ops t₂ y → s.HeardAfter x y) ↔
      t₀.loads s limit ≤ t₀.maxHot ∧
        (t₀.loads s limit + ops.length ≤ t₀.maxHot ∨ t₀.maxHot ≤ ops.length) := by
  have hmax₁ : t₁.maxHot = t₀.maxHot := (config_warm hwarm).maxHot_eq
  have hmax₂ : t₂.maxHot = t₁.maxHot := by
    refine exec_invariant (P := fun _ => True)
      (fun {u op u' o} (hu : t₁.SameConfig u) _ hone => ?_) (.refl t₁) (fun _ _ => trivial) hx
      |>.maxHot_eq
    exact hu.trans (config_step hone)
  have hlast := HoldsLast.warm hcold hhot hlimit hwarm
  have hlatest := holdsLatest_iff (hmax₁ ▸ hroom) hdist hlast
  rw [hmax₁] at hlatest
  rw [hlatest]
  refine and_congr_right fun (hle : t₀.loads s limit ≤ t₀.maxHot) => ?_
  have hsize : t₁.hot.size = t₀.loads s limit := by
    have hloads : (s.ranked.take (limit.getD t₀.maxHot)).length = t₀.loads s limit := by
      rw [List.length_take, s.ranked_perm.length_eq, OrderedDict.length_keys, loads]
    rw [← OrderedDict.length_keys, hlast, List.length_drop, hloads, hmax₁]
    omega
  have hself : t₁.HoldsLast t₁.hot.keys := by
    have hfits : t₁.hot.size ≤ t₁.maxHot := by rwa [hsize, hmax₁]
    rw [HoldsLast, OrderedDict.length_keys, Nat.sub_eq_zero_of_le hfits, List.drop_zero]
  obtain ⟨hruns, hlen⟩ := hself.learns hx hnew
  have hpair : t₁.hot.keys.Pairwise s.HeardAfter := by
    rw [hlast]
    exact (ColdStore.ranked_pairwise hdist).sublist
      ((List.drop_sublist _ _).trans (List.take_sublist _ _))
  rw [stays_latest_iff hpair hruns, hlen, hsize, hmax₂, hmax₁]

/-- Two rows, heard at 200 and at 100. -/
def twoRows : ColdStore :=
  .new ((OrderedDict.empty.insert (nodeIdOf 2)
      ⟨macOf 2, 1, none, 200, 200, 1, none, none, ""⟩).insert (nodeIdOf 1)
      ⟨macOf 1, 1, none, 100, 100, 1, none, none, ""⟩) 0

def twoRowTable (maxHot : ℕ) : RouteTable := .new none defaultTtl (some twoRows) maxHot

/-- The rows are sorted already. -/
theorem warm_twoRowTable (maxHot : ℕ) : (twoRowTable maxHot).warm none =
    (twoRows.rows.entries.take maxHot).foldlM
      (fun t e => t.putHot e.1 e.2.nextHop e.2.hops e.2.rssi e.2.lastSeen)
      (twoRowTable maxHot) := by
  have hsorted : twoRows.rows.entries.mergeSort
      (fun a b => decide (b.2.lastSeen ≤ a.2.lastSeen)) = twoRows.rows.entries :=
    List.mergeSort_of_pairwise (by decide +kernel)
  have hrecent (limit : ℕ) : twoRows.recent limit = twoRows.rows.entries.take limit := by
    rw [ColdStore.recent, hsorted]
  rw [← hrecent]
  rfl

def thirdNode : RouteOp := .learn ⟨nodeIdOf 3, macOf 3, 1, none, none, none, ""⟩ 300 0

theorem warm_latest_three : ∃ (t₁ t₂ : RouteTable) (os : List RouteOut),
    (twoRowTable 3).warm none = some t₁ ∧ exec step t₁ [thirdNode] = some (t₂, os) ∧
    t₁.HoldsLatest twoRows 2 ∧
    ∀ x y, t₁.Stays [thirdNode] t₂ x → y ∈ t₁.hot.keys → ¬ t₁.Stays [thirdNode] t₂ y →
      twoRows.HeardAfter x y := by
  have hrun : ((twoRowTable 3).warm none).bind (fun t₁ =>
      (exec step t₁ [thirdNode]).map fun r => decide (r.2 = [.learned .new])) = some true := by
    rw [warm_twoRowTable]
    decide +kernel
  obtain ⟨t₁, hwarm, hrun⟩ := Option.bind_eq_some_iff.mp hrun
  obtain ⟨⟨t₂, os⟩, hx, hos⟩ := Option.map_eq_some_iff.mp hrun
  obtain rfl := of_decide_eq_true hos
  exact ⟨t₁, t₂, _, hwarm, hx, (warm_latest_iff rfl rfl (by decide) (by decide +kernel)
    (by decide) hwarm hx (by simp)).mpr ⟨by decide, Or.inl (by decide)⟩⟩

/-- With room for two, the announce of a third node evicts the route heard at 200 and
spares the one heard at 100. -/
theorem warm_evicts_latest : ∃ (t₁ t₂ : RouteTable),
    (twoRowTable 2).warm none = some t₁ ∧
    exec step t₁ [thirdNode] = some (t₂, [.learned .new]) ∧
    t₁.Stays [thirdNode] t₂ (nodeIdOf 1) ∧ nodeIdOf 2 ∈ t₁.hot.keys ∧
    ¬ t₁.Stays [thirdNode] t₂ (nodeIdOf 2) ∧ ¬ twoRows.HeardAfter (nodeIdOf 1) (nodeIdOf 2) := by
  have hrun : ((twoRowTable 2).warm none).bind (fun t₁ =>
      (exec step t₁ [thirdNode]).map fun r => decide (r.2 = [.learned .new] ∧
        t₁.hot.keys = [nodeIdOf 2, nodeIdOf 1] ∧ r.1.hot.keys = [nodeIdOf 1, nodeIdOf 3])) =
      some true := by
    rw [warm_twoRowTable]
    decide +kernel
  obtain ⟨t₁, hwarm, hrun⟩ := Option.bind_eq_some_iff.mp hrun
  obtain ⟨⟨t₂, os⟩, hx, hdec⟩ := Option.map_eq_some_iff.mp hrun
  obtain ⟨rfl, h₁, h₂⟩ := of_decide_eq_true hdec
  have hlearnt : learntNodes [thirdNode] = {nodeIdOf 3} := rfl
  refine ⟨t₁, t₂, hwarm, hx, ⟨?_, ?_, ?_⟩, ?_, fun hstay => ?_, ?_⟩
  · rw [h₁]
    decide
  · rw [h₂]
    decide
  · rw [hlearnt]
    decide
  · rw [h₁]
    decide
  · have hmem := hstay.2.1
    rw [h₂] at hmem
    revert hmem
    decide
  · exact ColdStore.HeardAfter.asymm _ _ ⟨_, _, rfl, rfl, by decide +kernel⟩

end Beachedmesh
