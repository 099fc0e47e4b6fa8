import Beachedmesh.Control
import Beachedmesh.Support.Ranking

/-!
# What the routes query shows

The query sorts the hot table, filters it while it walks, and stops after the line that
reaches the limit. The sort takes a signal of 0 for an unknown one and gives unknown
the place of -127, and the truncation flag compares with the whole table.
-/
namespace Beachedmesh
open RouteTable

/-! ### The order of the listing -/

/-- A known signal comes before an unknown one, and of two the stronger first. -/
def Outshines : Option ℤ → Option ℤ → Prop
  | some x, some y => y < x
  | some _, none => True
  | none, _ => False

/-- Fewer hops first, then the stronger signal. -/
def Route.Ahead (a b : Route) : Prop :=
  a.hops < b.hops ∨ (a.hops = b.hops ∧ Outshines a.rssi b.rssi)

theorem Outshines.asymm {x y : Option ℤ} (h : Outshines x y) : ¬ Outshines y x := by
  cases x <;> cases y <;> simp_all [Outshines]
  omega

theorem not_outshines_trans {x y z : Option ℤ} (hxy : ¬ Outshines y x) (hyz : ¬ Outshines z y) :
    ¬ Outshines z x := by
  cases x <;> cases y <;> cases z <;> simp_all [Outshines]
  omega

theorem Route.weak_ahead : Ranking.Weak Route.Ahead where
  asymm := by
    rintro a b (hlt | ⟨heq, hab⟩) (hlt' | ⟨heq', hba⟩)
    · omega
    · omega
    · omega
    · exact hab.asymm hba
  trans := by
    rintro a b c hab hbc (hlt | ⟨heq, hca⟩)
    · rw [Ahead, not_or] at hab hbc
      omega
    · rw [Ahead, not_or, not_and] at hab hbc
      exact not_outshines_trans (hab.2 (by omega)) (hbc.2 (by omega)) hca

/-- The key by which `__iter__` sorts. -/
def Route.listKey (r : Route) : ℕ ×ₗ ℤ := toLex (r.hops, signalKey r.rssi)

theorem toList_eq (t : RouteTable) :
    t.toList = (t.hot.entries.map fun e => ofPacked e.1 e.2).mergeSort
      fun a b => decide (a.listKey ≤ b.listKey) := by
  rw [toList]
  congr 1
  funext a b
  rw [Route.listKey, Route.listKey, decide_eq_decide, Prod.Lex.toLex_le_toLex]

/-- The sort puts `a` before `b`, which has the better signal: 0 goes last, and -127 and
unknown in the order of the table. -/
def Sinks (l : List Route) (a b : Route) : Prop :=
  a.hops = b.hops ∧
    ((b.rssi = some 0 ∧ a.rssi.any (fun v => decide (-127 < v ∧ v < 0)) = true) ∨
      ([a, b].Sublist l ∧
        ((b.rssi = some 0 ∧ (a.rssi = none ∨ a.rssi = some (-127))) ∨
          (b.rssi = some (-127) ∧ a.rssi = none))))

instance (l : List Route) (a b : Route) : Decidable (Sinks l a b) :=
  inferInstanceAs (Decidable (_ ∧ _))

/-- The signals of a hot entry. -/
def Route.InRange (r : Route) : Prop := ∀ v, r.rssi = some v → -127 ≤ v ∧ v ≤ 127

theorem sinks_iff {l : List Route} {a b : Route} (ha : a.InRange) (hb : b.InRange) :
    Sinks l a b ↔ Ranking.Precedes Route.listKey l a b ∧ b.Ahead a := by
  have hka : ∀ v, a.rssi = some v → -127 ≤ v ∧ v ≤ 127 := ha
  have hkb : ∀ v, b.rssi = some v → -127 ≤ v ∧ v ≤ 127 := hb
  rw [Sinks, Ranking.Precedes, Route.Ahead, Route.listKey, Route.listKey, Prod.Lex.toLex_lt_toLex,
    toLex_inj, Prod.mk.injEq]
  generalize [a, b].Sublist l = earlier
  cases hra : a.rssi with
  | none =>
    cases hrb : b.rssi with
    | none => simp [Outshines]; omega
    | some w =>
      have := hkb w hrb
      simp only [Outshines, signalKey, Option.any_none]
      grind
  | some v =>
    have := hka v hra
    cases hrb : b.rssi with
    | none => simp [Outshines]; omega
    | some w =>
      have := hkb w hrb
      simp only [Outshines, signalKey, Option.any_some]
      grind

/-! ### The lines shown -/

namespace RouteTable

/-- The routes of the hot table, in the order of the table. -/
def routes (t : RouteTable) : List Route := t.hot.entries.map fun e => ofPacked e.1 e.2

/-- All of them, or the neighbours. -/
def matching (t : RouteTable) (wantNeighbours : Bool) : List Route :=
  t.routes.filter fun r => !wantNeighbours || r.isNeighbour

theorem inRange_of_mem_routes {t : RouteTable} {r : Route} (hr : r ∈ t.routes) : r.InRange := by
  obtain ⟨e, -, rfl⟩ := List.mem_map.mp hr
  intro v hv
  have hge := e.2.rssi_ge
  have hle := e.2.rssi_le
  simp only [ofPacked] at hv
  split_ifs at hv with hno
  obtain rfl := Option.some.inj hv
  rw [noRssi] at hno
  omega

theorem nodup_routes (t : RouteTable) : t.routes.Nodup := by
  refine List.Nodup.of_map Route.nodeId ?_
  rw [routes, List.map_map]
  exact t.hot.nodup

/-- The sorted and filtered table, against the table. -/
theorem toList_filter (t : RouteTable) (w : Bool) :
    (t.toList.filter fun r => !w || r.isNeighbour).Perm (t.matching w) ∧
    (t.toList.filter fun r => !w || r.isNeighbour).Pairwise
      (Ranking.Precedes Route.listKey (t.matching w)) := by
  rw [toList_eq]
  refine ⟨(List.mergeSort_perm _ _).filter _, ?_⟩
  have hsorted := (Ranking.pairwise_precedes_mergeSort Route.listKey t.nodup_routes).filter
    fun r => !w || r.isNeighbour
  refine hsorted.imp_of_mem fun {a b} ha hb hab => hab.imp_right fun ⟨heq, hsub⟩ => ⟨heq, ?_⟩
  -- an earlier place in the table is an earlier place among the matching routes
  have hfilter := hsub.filter fun r => !w || r.isNeighbour
  rwa [List.filter_eq_self.mpr] at hfilter
  intro r hr
  rcases List.mem_pair.mp hr with rfl | rfl
  · exact (List.mem_filter.mp ha).2
  · exact (List.mem_filter.mp hb).2

end RouteTable

namespace Control

theorem routeLines_eq (wall : ℚ) (limit : ℤ) (w : Bool) (count : ℕ) (rs : List Route) :
    routeLines wall limit w count rs =
      ((rs.filter fun r => !w || r.isNeighbour).take (max 1 (limit - count).toNat)).map
        (routeLine wall) := by
  induction rs generalizing count with
  | nil => simp [routeLines]
  | cons r rs ih =>
    rw [routeLines]
    by_cases hskip : (w && !r.isNeighbour) = true
    · rw [if_pos hskip, ih, List.filter_cons_of_neg (by simpa using hskip)]
    · rw [if_neg hskip, List.filter_cons_of_pos (by simpa [imp_iff_not_or] using hskip)]
      split_ifs with hlast
      · rw [show max 1 (limit - count).toNat = 1 by omega]
        simp
      · rw [ih, show max 1 (limit - count).toNat = max 1 (limit - (count + 1 : ℕ)).toNat + 1 by
          omega, List.take_succ_cons, List.map_cons]

theorem line_inj {wall : ℚ} {a b : Route} (h : routeLine wall a = routeLine wall b) :
    a.hops = b.hops ∧ a.rssi = b.rssi := by
  simp only [routeLine, Json.obj.injEq, List.cons.injEq, Prod.mk.injEq, Json.int.injEq] at h
  obtain ⟨-, -, ⟨-, hhops⟩, ⟨-, hrssi⟩, -⟩ := h
  refine ⟨by exact_mod_cast hhops, ?_⟩
  cases ha : a.rssi <;> cases hb : b.rssi <;> simp_all [Json.ofOption]

/-- Routes with the same line stand alike in the order. -/
theorem ahead_congr {wall : ℚ} {a a' b b' : Route} (ha : routeLine wall a = routeLine wall a')
    (hb : routeLine wall b = routeLine wall b') (h : a.Ahead b) : a'.Ahead b' := by
  obtain ⟨hha, hra⟩ := line_inj ha
  obtain ⟨hhb, hrb⟩ := line_inj hb
  rwa [Route.Ahead, hha, hra, hhb, hrb] at h

/-- How many lines a request for `limit` may have. -/
def cap (limit : ℕ) : ℕ := min limit maxRoutes.toNat

/-- The lines are the first of the matching routes in the order, as many as the limit
allows, and the flag says whether one is left out. -/
structure Truthful (wall : ℚ) (matching : List Route) (limit : ℕ) (lines : List Json)
    (truncated : Bool) : Prop where
  shown : ∃ s : List Route, s.Perm matching ∧ (s.Pairwise fun a b => ¬ b.Ahead a) ∧
    lines = (s.take (cap limit)).map (routeLine wall)
  truncated_iff : truncated = true ↔ lines.length < matching.length

/-- When the query tells the truth: a line is allowed or there is none to show, the
table it compares with is the one it lists or is cut short anyway, and nothing among the
first stands before a route that the sort made sink. -/
structure Honest (t : RouteTable) (w : Bool) (limit : ℕ) : Prop where
  first : 1 ≤ limit ∨ t.matching w = []
  whole : w = false ∨ (∀ r ∈ t.routes, r.isNeighbour = true) ∨
    cap limit < (t.matching w).length
  order : ∀ a ∈ t.matching w, ∀ b ∈ t.matching w, Sinks (t.matching w) a b →
    cap limit ≤ Ranking.rank Route.listKey (t.matching w) a

/-- The lines of a request that may show one, if there is one. -/
theorem routeLines_of_first {t : RouteTable} {w : Bool} {limit : ℕ} (wall : ℚ)
    (h : 1 ≤ limit ∨ t.matching w = []) :
    routeLines wall (min limit maxRoutes) w 0 t.toList =
      ((t.toList.filter fun r => !w || r.isNeighbour).take (cap limit)).map (routeLine wall) := by
  rw [routeLines_eq]
  rcases h with h | h
  · congr 2
    rw [cap, maxRoutes]
    omega
  · have hnil := (t.toList_filter w).1
    rw [h] at hnil
    rw [hnil.eq_nil, List.take_nil, List.take_nil]

theorem length_matching_le (t : RouteTable) (w : Bool) :
    (t.matching w).length ≤ t.hot.size := by
  refine (List.length_filter_le _ _).trans_eq ?_
  rw [routes, List.length_map]
  rfl

theorem length_matching_eq_iff (t : RouteTable) (w : Bool) :
    (t.matching w).length = t.hot.size ↔ w = false ∨ ∀ r ∈ t.routes, r.isNeighbour = true := by
  have hlen : t.hot.size = t.routes.length := by
    rw [routes, List.length_map]
    rfl
  rw [hlen, matching, List.length_filter_eq_length_iff]
  cases w <;> simp

/-- A pair in the wrong order is one that the sort made sink. -/
theorem order_iff (t : RouteTable) (w : Bool) (k : ℕ) :
    (∀ a ∈ t.matching w, ∀ b ∈ t.matching w,
        Ranking.Precedes Route.listKey (t.matching w) a b →
          Ranking.rank Route.listKey (t.matching w) a < k → ¬ b.Ahead a) ↔
      ∀ a ∈ t.matching w, ∀ b ∈ t.matching w, Sinks (t.matching w) a b →
        k ≤ Ranking.rank Route.listKey (t.matching w) a := by
  refine forall₂_congr fun a ha => forall₂_congr fun b hb => ?_
  rw [sinks_iff (inRange_of_mem_routes (List.mem_of_mem_filter ha))
    (inRange_of_mem_routes (List.mem_of_mem_filter hb)), and_imp, ← not_lt]
  exact imp_congr_right fun _ => imp_not_comm

/-- A limit of 0 does not keep a route from being shown. -/
theorem not_truthful_of_no_line {t : RouteTable} {w : Bool} {limit : ℕ} {wall : ℚ}
    {truncated : Bool} (h : ¬ (1 ≤ limit ∨ t.matching w = [])) :
    ¬ Truthful wall (t.matching w) limit
      (routeLines wall (min limit maxRoutes) w 0 t.toList) truncated := by
  rintro ⟨⟨s, -, -, hs⟩, -⟩
  obtain ⟨hzero, hne⟩ := not_or.mp h
  have hcap : cap limit = 0 := by
    rw [cap]
    omega
  rw [hcap, List.take_zero, List.map_nil, routeLines_eq, List.map_eq_nil_iff,
    List.take_eq_nil_iff] at hs
  rcases hs with hs | hs
  · omega
  · have hperm := (t.toList_filter w).1
    rw [hs] at hperm
    exact hne hperm.symm.eq_nil

theorem truthful_iff (t : RouteTable) (w : Bool) (limit : ℕ) (wall : ℚ) {lines : List Json}
    (hlines : lines = routeLines wall (min limit maxRoutes) w 0 t.toList) :
    Truthful wall (t.matching w) limit lines (decide (t.hot.size > lines.length)) ↔
      Honest t w limit := by
  by_cases hfirst : 1 ≤ limit ∨ t.matching w = []
  swap
  · rw [hlines]
    exact iff_of_false (not_truthful_of_no_line hfirst) fun h => hfirst h.first
  obtain ⟨hperm, hsorted⟩ := t.toList_filter w
  have hcut := routeLines_of_first wall hfirst
  have hshown := Ranking.exists_sorted_take_iff_rank Route.weak_ahead
    (fun (ha : routeLine wall _ = routeLine wall _) hb h => ahead_congr ha hb h)
    (t.nodup_routes.filter _) hperm hsorted (cap limit)
  have hlen : lines.length = min (cap limit) (t.matching w).length := by
    rw [hlines, hcut, List.length_map, List.length_take, hperm.length_eq]
  have hle := length_matching_le t w
  have hall := length_matching_eq_iff t w
  constructor
  · rintro ⟨hs, hflag⟩
    rw [hlines, hcut] at hs
    refine ⟨hfirst, ?_, (order_iff t w _).mp (hshown.mp hs)⟩
    rw [decide_eq_true_iff, hlen] at hflag
    rw [← or_assoc, ← hall]
    omega
  · rintro ⟨-, hwhole, hord⟩
    refine ⟨?_, ?_⟩
    · rw [hlines, hcut]
      exact hshown.mpr ((order_iff t w _).mpr hord)
    · rw [← or_assoc, ← hall] at hwhole
      rw [decide_eq_true_iff, hlen]
      omega

/-- For every table, limit and flag: the answer tells the truth exactly under `Honest`. -/
theorem cmdRoutes_truthful_iff (n : Node) (fields : List (String × Json)) (k : Connection)
    (limit : ℕ) (w : Bool)
    (hlimit : ((Json.field? fields "limit").getD (.int 40)).toInt = .ok (limit : ℤ))
    (hw : ((Json.field? fields "neighbours").getD (.bool false)).truthy = w) :
    ∃ lines truncated, cmdRoutes n fields k = .ok (.obj [("routes", .arr lines),
        ("hot", .int n.routes.hot.size),
        ("max_hot", .int n.routes.maxHot),
        ("memory_bytes", .int n.routes.memoryBytes),
        ("truncated", .bool truncated)]) ∧
      (Truthful k.wall (n.routes.matching w) limit lines truncated ↔
        Honest n.routes w limit) := by
  refine ⟨_, _, ?_, truthful_iff n.routes w limit k.wall rfl⟩
  rw [cmdRoutes, hlimit]
  simp only [hw]

theorem seconds_fit : 100 < 2 ^ 32 := by decide

/-- Two neighbours, the second heard at -90 dBm, and a node behind the first. -/
def threeRoutes (first : Packed) : RouteTable :=
  { RouteTable.new none defaultTtl none 10 with
    hot := ⟨[(nodeIdOf 1, first),
      (nodeIdOf 2, ⟨macOf 2, 0, -90, 100, by decide, by decide, by decide, seconds_fit⟩),
      (nodeIdOf 3, ⟨macOf 1, 1, -60, 100, by decide, by decide, by decide, seconds_fit⟩)],
      by simp only [List.map_cons, List.map_nil]; decide⟩ }

def heardAt40 : Packed := ⟨macOf 1, 0, -40, 100, by decide, by decide, by decide, seconds_fit⟩

/-- A signal of 0 dBm. -/
def heardAt0 : Packed := ⟨macOf 1, 0, 0, 100, by decide, by decide, by decide, seconds_fit⟩

def listingNode (first : Packed) : Node := { Node.sampleStart with routes := threeRoutes first }

theorem cmdRoutes_truthful_two : ∃ lines truncated,
    cmdRoutes (listingNode heardAt40) [("limit", .int 2)] sampleClient =
      .ok (.obj [("routes", .arr lines), ("hot", .int 3), ("max_hot", .int 10),
        ("memory_bytes", .int 156), ("truncated", .bool truncated)]) ∧
      Truthful 0 ((threeRoutes heardAt40).matching false) 2 lines truncated := by
  have hhonest : Honest (threeRoutes heardAt40) false 2 :=
    ⟨Or.inl (by decide), Or.inl rfl, by decide +kernel⟩
  obtain ⟨lines, truncated, hout, hiff⟩ := cmdRoutes_truthful_iff (listingNode heardAt40)
    [("limit", .int 2)] sampleClient 2 false rfl rfl
  exact ⟨lines, truncated, hout, hiff.mpr hhonest⟩

/-- The query answers, and with something else than the truth. -/
def Misreports (first : Packed) (limit : ℕ) (w : Bool) : Prop :=
  ∃ lines truncated, cmdRoutes (listingNode first)
      [("limit", .int limit), ("neighbours", .bool w)] sampleClient =
      .ok (.obj [("routes", .arr lines), ("hot", .int 3), ("max_hot", .int 10),
        ("memory_bytes", .int 156), ("truncated", .bool truncated)]) ∧
    ¬ Truthful 0 ((threeRoutes first).matching w) limit lines truncated

theorem misreports_of_not_honest {first : Packed} {limit : ℕ} {w : Bool}
    (h : ¬ Honest (threeRoutes first) w limit) : Misreports first limit w :=
  ⟨_, _, rfl, mt (truthful_iff (threeRoutes first) w limit 0 rfl).mp h⟩

/-- A limit of 0, a signal of 0 among the neighbours, and all neighbours shown as if some
were left out. -/
theorem cmdRoutes_not_truthful :
    Misreports heardAt40 0 false ∧ Misreports heardAt0 2 false ∧ Misreports heardAt40 2 true := by
  refine ⟨misreports_of_not_honest ?_, misreports_of_not_honest ?_, misreports_of_not_honest ?_⟩
  · rintro ⟨hfirst, -, -⟩
    revert hfirst
    decide
  · rintro ⟨-, -, horder⟩
    revert horder
    decide +kernel
  · rintro ⟨-, hwhole, -⟩
    revert hwhole
    decide +kernel

end Control

end Beachedmesh
