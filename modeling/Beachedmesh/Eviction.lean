import Beachedmesh.Tiers

/-!
# Eviction and the unbounded table

A table that never evicts is the yardstick for one that does. The two hold the
same routes as long as no announce is judged without the entry it would have
been compared with: `learn` asks the hot table only, and what comes back from
disk is dated by the last hearing and not by the last commit.
-/
namespace Beachedmesh
open Machine

namespace RouteOp

/-- The calls that a running table serves: no `expire` and no `warm`. -/
def isTraffic : RouteOp → Bool
  | .learn _ _ _ => true
  | .nextHop _ => true
  | .tick _ => true
  | .flush _ => true
  | _ => false

def learnt? : RouteOp → Option NodeId
  | .learn c _ _ => some c.nodeId
  | _ => none

end RouteOp

/-- The nodes whose announces a run brings. -/
def learntNodes (ops : List RouteOp) : Finset NodeId := (ops.filterMap RouteOp.learnt?).toFinset

namespace RouteTable

/-- The bounded table `a` judges the copy against something other than `b`, which
never evicts, and it shows: the entry is gone, or it came back younger, with the
copy inside its guard and past the guard of the original one, a longer way or as
long a way by another neighbour that is no stronger. -/
def Misjudged (a b : RouteTable) (c : Copy) (now : ℚ) : Prop :=
  b.ownId ≠ some c.nodeId ∧ ∃ old, b.hot.get? c.nodeId = some old ∧
    ∀ e, a.hot.get? c.nodeId = some e →
      now - e.lastSeen ≤ floodGuard ∧ floodGuard < now - old.lastSeen ∧
        (old.hops < c.hops ∨
          c.hops = old.hops ∧ c.nextHop ≠ old.nextHop ∧ stronger c.rssi old.rssi = false)

/-- The two tables hold the same routes, wait for the same ones and answer alike. -/
structure Alike (a b : RouteTable) : Prop where
  cold_eq : a.cold = b.cold
  pending_eq : a.pending = b.pending
  answers : ∀ n x a' y b', a.nextHop n = some (x, a') → b.nextHop n = some (y, b') → x = y
  answered : ∀ n, (b.nextHop n).isSome
  /-- The one failure is a time past the four octets of the packed format. -/
  raises : ∀ n, a.nextHop n = none → ∃ r, a.recorded n = some r ∧ 2 ^ 32 ≤ pyInt r.lastSeen

/-- An entry stands for a stored bearing: same route, and not younger than it. -/
structure Dates (b : Bearing) (e : Packed) : Prop where
  nextHop_eq : b.nextHop = e.nextHop
  hops_eq : b.hops = e.hops
  rssi_eq : b.rssi.getD noRssi = e.rssi
  le : (e.lastSeen : ℤ) ≤ pyInt b.lastSeen

/-- The relation that a run keeps between the bounded table `a` and the unbounded
`b`: one store and one pending table, every stored route hot in `b`, and hot in
`a` at most a younger copy of it. -/
structure Mirrors (S : Finset NodeId) (T : ℚ) (a b : RouteTable) : Prop where
  own_eq : a.ownId = b.ownId
  cold_eq : a.cold = b.cold
  attached : b.cold.isSome
  pending_eq : a.pending = b.pending
  room : S.card ≤ b.maxHot
  hot_mem : ∀ n ∈ b.hot.keys, n ∈ S
  pending_mem : ∀ n ∈ b.pending.keys, n ∈ S
  dated : ∀ n e, b.hot.get? n = some e → ∃ s, b.stored n = some s ∧ Dates s e
  past : ∀ n s, b.stored n = some s → s.lastSeen ≤ T
  hot_of_stored : ∀ n s, b.stored n = some s → ∃ e, b.hot.get? n = some e
  younger : ∀ n e, a.hot.get? n = some e → ∃ old, b.hot.get? n = some old ∧
    e.nextHop = old.nextHop ∧ e.hops = old.hops ∧ e.rssi = old.rssi ∧
    old.lastSeen ≤ e.lastSeen ∧ (e.lastSeen : ℤ) ≤ pyInt T

variable {S : Finset NodeId} {T : ℚ} {a b a' b' : RouteTable}

theorem Mirrors.mono {T' : ℚ} (h : Mirrors S T a b) (hT : T ≤ T') : Mirrors S T' a b :=
  { h with
    past := fun n s hs => (h.past n s hs).trans hT
    younger := fun n e he => by
      obtain ⟨old, ho, h₁, h₂, h₃, h₄, h₅⟩ := h.younger n e he
      exact ⟨old, ho, h₁, h₂, h₃, h₄, h₅.trans (pyInt_mono hT)⟩ }

theorem Mirrors.cold_some (h : Mirrors S T a b) : ∃ s, b.cold = some s :=
  Option.isSome_iff_exists.mp h.attached

/-- The unbounded table has room for every node of the run. -/
theorem Mirrors.place_eq (h : Mirrors S T a b) {n : NodeId} (hn : n ∈ S) (e : Packed) :
    b.place n e = { b with hot := b.hot.reinsert n e } := by
  have hsize : (b.hot.reinsert n e).size ≤ b.maxHot := by
    refine le_trans ?_ h.room
    rw [← OrderedDict.length_keys, ← List.toFinset_card_of_nodup (OrderedDict.nodup_keys _)]
    refine Finset.card_le_card fun m hm => ?_
    rw [List.mem_toFinset, OrderedDict.keys_reinsert, List.mem_append, List.mem_filter,
      List.mem_singleton] at hm
    rcases hm with ⟨hm, -⟩ | rfl
    · exact h.hot_mem m hm
    · exact hn
  rw [place, OrderedDict.evict_of_size_le hsize]

/-- Both tables take the same pending table. -/
theorem Mirrors.withPending (h : Mirrors S T a b) {p : OrderedDict NodeId Settle}
    (hp : ∀ n ∈ p.keys, n ∈ S) : Mirrors S T { a with pending := p } { b with pending := p } :=
  { h with pending_eq := rfl, pending_mem := hp }

theorem Mirrors.dropPending (h : Mirrors S T a b) (n : NodeId) :
    Mirrors S T (a.dropPending n) (b.dropPending n) := by
  have hsub : ∀ m ∈ (b.pending.erase n).keys, m ∈ S := by
    intro m hm
    rw [OrderedDict.keys_erase, List.mem_filter] at hm
    exact h.pending_mem m hm.1
  have hp := h.withPending hsub
  rw [RouteTable.dropPending, h.pending_eq]
  exact hp

/-! ### Writing -/

/-- Both tables commit the copy. -/
theorem Mirrors.commit (h : Mirrors S T a b) {c : Copy} {mono : ℚ} (hc : c.nodeId ∈ S)
    (ha : a.commit c T mono = some a') (hb : b.commit c T mono = some b') : Mirrors S T a' b' := by
  obtain ⟨e, he, rfl⟩ := commit_eq_some_iff.mp ha
  obtain ⟨e', he', rfl⟩ := commit_eq_some_iff.mp hb
  obtain rfl : e = e' := Option.some.inj (he.symm.trans he')
  obtain ⟨hnh, hhops, hrssi, hseen⟩ := pack_eq_some_iff.mp he
  obtain ⟨s, hs⟩ := h.cold_some
  rw [h.place_eq hc]
  set b₁ : RouteTable := { b with hot := b.hot.reinsert c.nodeId e } with hb₁
  have hst (m : NodeId) : (b₁.note c.nodeId (c.hearing T) mono).stored m =
      if m = c.nodeId then some (c.hearing T).bearing else b.stored m := by
    rw [stored_note, show b₁.cold = some s from hs, Option.map_some]
    rfl
  have hhot (m : NodeId) : (b₁.note c.nodeId (c.hearing T) mono).hot.get? m =
      if m = c.nodeId then some e else b.hot.get? m :=
    OrderedDict.get?_reinsert b.hot c.nodeId m e
  refine
    { own_eq := h.own_eq
      cold_eq := ?_
      attached := by simp [note, hb₁, hs]
      pending_eq := h.pending_eq
      room := h.room
      hot_mem := ?_
      pending_mem := h.pending_mem
      dated := ?_
      past := ?_
      hot_of_stored := ?_
      younger := ?_ }
  · show a.cold.map _ = b.cold.map _
    rw [h.cold_eq]
  · intro m hm
    obtain ⟨x, hx⟩ := OrderedDict.mem_keys_iff.mp hm
    rw [hhot] at hx
    split_ifs at hx with hmc
    · exact hmc ▸ hc
    · exact h.hot_mem m (OrderedDict.mem_keys_iff.mpr ⟨x, hx⟩)
  · intro m x hx
    rw [hhot] at hx
    rw [hst]
    split_ifs at hx ⊢ with hmc
    · obtain rfl := Option.some.inj hx
      exact ⟨_, rfl, hnh.symm, hhops.symm, hrssi.symm, hseen.le⟩
    · exact h.dated m x hx
  · intro m x hx
    rw [hst] at hx
    split_ifs at hx with hmc
    · obtain rfl := Option.some.inj hx
      exact le_rfl
    · exact h.past m x hx
  · intro m x hx
    rw [hhot]
    rw [hst] at hx
    split_ifs at hx ⊢ with hmc
    · exact ⟨e, rfl⟩
    · exact h.hot_of_stored m x hx
  · intro m x hx
    rw [hhot]
    rcases get?_of_get?_place hx with ⟨hmc, rfl⟩ | ⟨hmc, hx⟩
    · rw [if_pos hmc]
      exact ⟨x, rfl, rfl, rfl, rfl, le_rfl, hseen.le⟩
    · rw [if_neg hmc]
      exact h.younger m x hx

/-- Both tables note the same hearing of a route they leave standing. -/
theorem Mirrors.note (h : Mirrors S T a b) {c : Copy} {now mono : ℚ} {old : Packed}
    (hT : T ≤ now) (hold : b.hot.get? c.nodeId = some old) :
    Mirrors S now (a.note c.nodeId (old.heard c now) mono)
      (b.note c.nodeId (old.heard c now) mono) := by
  obtain ⟨s, hs⟩ := h.cold_some
  have h' := h.mono hT
  have hst (m : NodeId) : (b.note c.nodeId (old.heard c now) mono).stored m =
      if m = c.nodeId then some (old.heard c now).bearing else b.stored m := by
    rw [stored_note, hs, Option.map_some]
  refine
    { h' with
      cold_eq := ?_
      attached := by simp [RouteTable.note, hs]
      dated := ?_
      past := ?_
      hot_of_stored := ?_ }
  · show a.cold.map _ = b.cold.map _
    rw [h.cold_eq]
  · intro m x hx
    have hx' : b.hot.get? m = some x := hx
    rw [hst]
    split_ifs with hmc
    · subst hmc
      obtain rfl := Option.some.inj (hold.symm.trans hx')
      obtain ⟨s', hs', hd⟩ := h.dated _ old hold
      exact ⟨_, rfl, rfl, rfl, rfl, hd.le.trans (pyInt_mono ((h.past _ _ hs').trans hT))⟩
    · exact h.dated m x hx'
  · intro m x hx
    rw [hst] at hx
    split_ifs at hx with hmc
    · obtain rfl := Option.some.inj hx
      exact le_rfl
    · exact h'.past m x hx
  · intro m x hx
    rw [hst] at hx
    split_ifs at hx with hmc
    · subst hmc
      exact ⟨old, hold⟩
    · exact h.hot_of_stored m x hx

/-! ### Judging a copy -/

/-- The entry of the bounded table is judged as the original one, up to its date. -/
theorem heard_congr {e old : Packed} (hnh : e.nextHop = old.nextHop) (hh : e.hops = old.hops)
    (hr : e.rssi = old.rssi) (c : Copy) (now : ℚ) : e.heard c now = old.heard c now := by
  rw [Packed.heard, Packed.heard, hnh, hh, hr]

theorem sharpened_congr (h : a.pending = b.pending) (c : Copy) (now : ℚ) :
    a.sharpened c now = b.sharpened c now := by
  rw [sharpened, sharpened, h]

/-- The entries of the two tables for a node of the unbounded one. -/
theorem Mirrors.younger_than (h : Mirrors S T a b) {n : NodeId} {e old : Packed}
    (he : a.hot.get? n = some e) (hold : b.hot.get? n = some old) :
    e.nextHop = old.nextHop ∧ e.hops = old.hops ∧ e.rssi = old.rssi ∧
      (old.lastSeen : ℚ) ≤ e.lastSeen := by
  obtain ⟨old', ho, hnh, hh, hr, hle, -⟩ := h.younger n e he
  obtain rfl : old = old' := Option.some.inj (hold.symm.trans ho)
  exact ⟨hnh, hh, hr, by exact_mod_cast hle⟩

/-- A copy that is not misjudged replaces the route in both tables or in none, and
leaves the same pending table. -/
theorem Mirrors.judged (h : Mirrors S T a b) {c : Copy} {now : ℚ} {e old : Packed}
    (hown : b.ownId ≠ some c.nodeId) (he : a.hot.get? c.nodeId = some e)
    (hold : b.hot.get? c.nodeId = some old) (hj : ¬ Misjudged a b c now) :
    (e.Yields c now ↔ old.Yields c now) ∧
      (¬ old.Yields c now → a.standing c now e = b.standing c now old) := by
  obtain ⟨hnh, hh, hr, hle⟩ := h.younger_than he hold
  have hguard : now - e.lastSeen ≤ floodGuard → floodGuard < now - old.lastSeen →
      ¬ (old.hops < c.hops ∨
        c.hops = old.hops ∧ c.nextHop ≠ old.nextHop ∧ stronger c.rssi old.rssi = false) := by
    intro h₁ h₂ h₃
    refine hj ⟨hown, old, hold, fun e' he' => ?_⟩
    obtain rfl : e = e' := Option.some.inj (he.symm.trans he')
    exact ⟨h₁, h₂, h₃⟩
  refine ⟨?_, fun hy => ?_⟩
  · rw [Packed.Yields, Packed.Yields, hnh, hh, hr]
    constructor
    · rintro (hlt | ⟨heq, hsame | hlate | hstr⟩)
      · exact Or.inl hlt
      · exact Or.inr ⟨heq, Or.inl hsame⟩
      · exact Or.inr ⟨heq, Or.inr (Or.inl (by linarith))⟩
      · exact Or.inr ⟨heq, Or.inr (Or.inr hstr)⟩
    · rintro (hlt | ⟨heq, hsame | hlate | hstr⟩)
      · exact Or.inl hlt
      · exact Or.inr ⟨heq, Or.inl hsame⟩
      · by_cases hlate' : floodGuard < now - e.lastSeen
        · exact Or.inr ⟨heq, Or.inr (Or.inl hlate')⟩
        · by_cases hsame : c.nextHop = old.nextHop
          · exact Or.inr ⟨heq, Or.inl hsame⟩
          · cases hstr : stronger c.rssi old.rssi with
            | true => exact Or.inr ⟨heq, Or.inr (Or.inr rfl)⟩
            | false => exact absurd (Or.inr ⟨heq, hsame, hstr⟩) (hguard (not_lt.mp hlate') hlate)
      · exact Or.inr ⟨heq, Or.inr (Or.inr hstr)⟩
  · rw [standing, standing, hh, h.pending_eq, sharpened_congr h.pending_eq]
    split_ifs with heq h₁ h₂ h₂
    · rfl
    · rfl
    · exact absurd (by linarith) h₂
    · -- the younger entry holds the copy off, and the older one would let it settle
      have hlt : old.hops < c.hops := by
        by_contra hge
        exact hy (Or.inl (by omega))
      exact absurd (Or.inl hlt) (hguard (not_lt.mp h₁) h₂)
    · rfl

theorem verdictOn_some_ne_new (c : Copy) (now : ℚ) (old : Packed) :
    verdictOn c now (some old) ≠ .new := by
  rw [verdictOn]
  split_ifs <;> decide

/-- Two entries of one route, one younger than the other, differ in their verdict
between the two guards, where the date is asked at all. -/
theorem verdictOn_eq_iff {c : Copy} {now : ℚ} {e old : Packed} (hnh : e.nextHop = old.nextHop)
    (hh : e.hops = old.hops) (hr : e.rssi = old.rssi) (hle : (old.lastSeen : ℚ) ≤ e.lastSeen) :
    verdictOn c now (some e) = verdictOn c now (some old) ↔
      ¬ (now - e.lastSeen ≤ floodGuard ∧ floodGuard < now - old.lastSeen ∧
        (old.hops < c.hops ∨
          c.hops = old.hops ∧ c.nextHop ≠ old.nextHop ∧ stronger c.rssi old.rssi = false)) := by
  rw [verdictOn, verdictOn, hnh, hh, hr]
  rcases lt_trichotomy c.hops old.hops with hlt | heq | hgt
  · rw [if_pos hlt, if_pos hlt]
    refine iff_of_true rfl ?_
    rintro ⟨-, -, hgt | ⟨heq, -⟩⟩ <;> omega
  · simp only [if_neg heq.not_lt, if_neg heq.not_gt]
    by_cases hsame : c.nextHop = old.nextHop
    · rw [if_pos hsame, if_pos hsame]
      refine iff_of_true rfl ?_
      rintro ⟨-, -, hgt | ⟨-, hne, -⟩⟩
      · omega
      · exact hne hsame
    rw [if_neg hsame, if_neg hsame]
    cases hstr : stronger c.rssi old.rssi with
    | true => simp [heq]
    | false =>
      by_cases hin : now - e.lastSeen ≤ floodGuard <;>
        by_cases hout : floodGuard < now - old.lastSeen
      · simp [hin, hout, heq, hsame, hout.not_ge]
      · simp [hin, hout, not_lt.mp hout]
      · simp [hin, hout.not_ge]
      · exact absurd (by linarith [not_le.mp hin]) hout
  · simp only [if_neg hgt.not_gt, if_pos hgt]
    by_cases hin : now - e.lastSeen ≤ floodGuard <;>
      by_cases hout : floodGuard < now - old.lastSeen
    · simp [hin, hin.not_gt, hout, hgt]
    · simp [hin.not_gt, hout]
    · simp [not_le.mp hin, hin, hout]
    · exact absurd (by linarith [not_le.mp hin]) hout

/-- The two tables give a copy one verdict exactly when it is not misjudged. -/
theorem Mirrors.verdict_eq_iff (h : Mirrors S T a b) {c : Copy} {now mono : ℚ}
    {v w : LearnVerdict} (ha : a.learn c now mono = some (v, a'))
    (hb : b.learn c now mono = some (w, b')) : v = w ↔ ¬ Misjudged a b c now := by
  by_cases hown : b.ownId = some c.nodeId
  · have hself {t t' : RouteTable} {v : LearnVerdict} (ht : t.ownId = some c.nodeId)
        (hx : t.learn c now mono = some (v, t')) : LearnVerdict.self = v := by
      rw [RouteTable.learn, if_pos ht] at hx
      exact (Prod.mk.inj (Option.some.inj hx)).1
    refine iff_of_true ?_ fun hj => hj.1 hown
    exact (hself (h.own_eq.trans hown) ha).symm.trans (hself hown hb)
  rw [verdict_of_learn ha (h.own_eq ▸ hown), verdict_of_learn hb hown]
  cases hold : b.hot.get? c.nodeId with
  | none =>
    -- the unbounded table has no entry, so the bounded one has none either
    have he : a.hot.get? c.nodeId = none := by
      by_contra he
      obtain ⟨e, he⟩ := Option.ne_none_iff_exists'.mp he
      obtain ⟨old, ho, -⟩ := h.younger _ e he
      cases hold.symm.trans ho
    rw [he]
    refine iff_of_true rfl ?_
    rintro ⟨-, old, ho, -⟩
    cases hold.symm.trans ho
  | some old =>
    cases he : a.hot.get? c.nodeId with
    | none =>
      refine iff_of_false (verdictOn_some_ne_new c now old).symm
        (not_not_intro ⟨hown, old, hold, fun e he' => ?_⟩)
      cases he.symm.trans he'
    | some e =>
      obtain ⟨hnh, hh, hr, hle⟩ := h.younger_than he hold
      rw [verdictOn_eq_iff hnh hh hr hle, not_iff_not]
      constructor
      · intro hcase
        refine ⟨hown, old, hold, fun e' he' => ?_⟩
        obtain rfl : e = e' := Option.some.inj (he.symm.trans he')
        exact hcase
      · rintro ⟨-, old', ho, hcase⟩
        obtain rfl : old = old' := Option.some.inj (hold.symm.trans ho)
        exact hcase e he

theorem standing_mem (h : Mirrors S T a b) {c : Copy} (hc : c.nodeId ∈ S) (now : ℚ)
    (old : Packed) : ∀ n ∈ (b.standing c now old).keys, n ∈ S := by
  intro n hn
  rw [standing] at hn
  split_ifs at hn
  · rw [OrderedDict.keys_erase, List.mem_filter] at hn
    exact h.pending_mem n hn.1
  · obtain ⟨p, hp⟩ := OrderedDict.mem_keys_iff.mp hn
    rw [get?_sharpened] at hp
    split_ifs at hp with hnc
    · exact hnc ▸ hc
    · exact h.pending_mem n (OrderedDict.mem_keys_iff.mpr ⟨p, hp⟩)
  · exact h.pending_mem n hn

/-- Learning keeps the relation unless the copy is misjudged. -/
theorem Mirrors.learn (h : Mirrors S T a b) {c : Copy} {now mono : ℚ} {v w : LearnVerdict}
    (hT : T ≤ now) (hc : c.nodeId ∈ S) (ha : a.learn c now mono = some (v, a'))
    (hb : b.learn c now mono = some (w, b')) (hj : ¬ Misjudged a b c now) :
    Mirrors S now a' b' := by
  by_cases hown : b.ownId = some c.nodeId
  · have hself {t t' : RouteTable} {v : LearnVerdict} (ht : t.ownId = some c.nodeId)
        (hx : t.learn c now mono = some (v, t')) : t = t' := by
      rw [RouteTable.learn, if_pos ht] at hx
      exact (Prod.mk.inj (Option.some.inj hx)).2
    rw [← hself (h.own_eq.trans hown) ha, ← hself hown hb]
    exact h.mono hT
  have hpend := (h.mono hT).dropPending c.nodeId
  rcases learn_replaces_or_stands ha (h.own_eq ▸ hown) with ⟨hya, hca⟩ | ⟨e, he, hya, rfl⟩ <;>
    rcases learn_replaces_or_stands hb hown with ⟨hyb, hcb⟩ | ⟨old, hold, hyb, rfl⟩
  · exact hpend.commit hc hca hcb
  · -- the bounded table commits what the unbounded one refuses
    cases he : a.hot.get? c.nodeId with
    | none => exact absurd ⟨hown, old, hold, fun e he' => by cases he.symm.trans he'⟩ hj
    | some e => exact absurd ((h.judged hown he hold hj).1.mp (hya e he)) hyb
  · obtain ⟨old, hold, -⟩ := h.younger c.nodeId e he
    exact absurd ((h.judged hown he hold hj).1.mpr (hyb old hold)) hya
  · obtain ⟨old', ho, hnh, hh, hr, -, -⟩ := h.younger c.nodeId e he
    obtain rfl : old = old' := Option.some.inj (hold.symm.trans ho)
    rw [(h.judged hown he hold hj).2 hyb, heard_congr hnh hh hr]
    exact (h.withPending (standing_mem h hc now old)).note hT hold

/-! ### The other calls -/

/-- The record behind a stored bearing. -/
theorem Mirrors.recorded_eq (h : Mirrors S T a b) (n : NodeId) : a.recorded n = b.recorded n := by
  rw [recorded, recorded, h.cold_eq]

/-- A record of either table is dated by the entry of the unbounded one. -/
theorem Mirrors.dates_recorded (h : Mirrors S T a b) {n : NodeId} {r : Route}
    (hr : a.recorded n = some r) :
    ∃ old, b.hot.get? n = some old ∧ Dates r.bearing old ∧ r.lastSeen ≤ T := by
  have hst : b.stored n = some r.bearing := by
    rw [stored_eq_map, ← h.recorded_eq, hr, Option.map_some]
  obtain ⟨old, hold⟩ := h.hot_of_stored n _ hst
  obtain ⟨s, hs, hd⟩ := h.dated n old hold
  obtain rfl : r.bearing = s := Option.some.inj (hst.symm.trans hs)
  exact ⟨old, hold, hd, h.past n _ hst⟩

theorem reinsert_get? {t : RouteTable} {n : NodeId} {e : Packed} (he : t.hot.get? n = some e)
    (m : NodeId) : (t.hot.reinsert n e).get? m = t.hot.get? m := by
  rw [OrderedDict.get?_reinsert]
  split_ifs with hm
  · rw [hm, he]
  · rfl

/-- Look-ups answer alike and keep the relation. -/
theorem Mirrors.nextHop (h : Mirrors S T a b) {n : NodeId} {x y : Option Mac}
    (ha : a.nextHop n = some (x, a')) (hb : b.nextHop n = some (y, b')) :
    x = y ∧ Mirrors S T a' b' := by
  -- the unbounded table answers from its hot entry, or neither table knows the node
  have hright : (∃ old, b.hot.get? n = some old ∧ y = some old.nextHop ∧
      Mirrors S T a b') ∨ (b.hot.get? n = none ∧ y = none ∧ b' = b) := by
    cases nextHop_cases hb with
    | hit old hold =>
      refine Or.inl ⟨old, hold, rfl, ?_⟩
      exact
        { h with
          hot_mem := fun m hm => h.hot_mem m
            ((OrderedDict.mem_keys_congr (reinsert_get? hold m)).mp hm)
          dated := fun m e he => h.dated m e (reinsert_get? hold m ▸ he)
          hot_of_stored := fun m s hs => reinsert_get? hold m ▸ h.hot_of_stored m s hs
          younger := fun m e he => reinsert_get? hold m ▸ h.younger m e he }
    | cold r t' hn hr hput =>
      obtain ⟨old, hold, -⟩ := h.dates_recorded ((h.recorded_eq n).trans hr)
      cases hn.symm.trans hold
    | miss hn _ => exact Or.inr ⟨hn, rfl, rfl⟩
  cases nextHop_cases ha with
  | hit e he =>
    obtain ⟨old, ho, hnh, -⟩ := h.younger n e he
    rcases hright with ⟨old', hold', rfl, hm⟩ | ⟨hn, -⟩
    · obtain rfl : old = old' := Option.some.inj (ho.symm.trans hold')
      refine ⟨congrArg some hnh, { hm with younger := fun m e' he' => ?_ }⟩
      exact hm.younger m e' (reinsert_get? he m ▸ he')
    · cases hn.symm.trans ho
  | cold r t' hn hr hput =>
    obtain ⟨old, ho, hd, hpast⟩ := h.dates_recorded hr
    obtain ⟨e, he, rfl⟩ := putHot_eq_some_iff.mp hput
    obtain ⟨hnh, hhops, hrssi, hseen⟩ := pack_eq_some_iff.mp he
    rcases hright with ⟨old', hold', rfl, hm⟩ | ⟨hn, -⟩
    · obtain rfl : old = old' := Option.some.inj (ho.symm.trans hold')
      refine ⟨congrArg some hd.nextHop_eq, { hm with younger := fun m e' he' => ?_ }⟩
      rcases get?_of_get?_place he' with ⟨rfl, rfl⟩ | ⟨-, he'⟩
      · obtain ⟨old', ho'⟩ : ∃ old', b'.hot.get? m = some old' := by
          refine hm.hot_of_stored m r.bearing ?_
          rw [stored_nextHop hb, stored_eq_map, ← h.recorded_eq, hr, Option.map_some]
        obtain ⟨s, hs, hd'⟩ := hm.dated m old' ho'
        have hsr : s = r.bearing := by
          rw [stored_nextHop hb, stored_eq_map, ← h.recorded_eq, hr, Option.map_some] at hs
          exact (Option.some.inj hs).symm
        subst hsr
        have hle := hd'.le
        refine ⟨old', ho', hnh.trans hd'.nextHop_eq, hhops.trans hd'.hops_eq,
          hrssi.trans hd'.rssi_eq, ?_, hseen.le.trans (pyInt_mono hpast)⟩
        have hcast : (old'.lastSeen : ℤ) ≤ e'.lastSeen := hle.trans hseen.ge
        exact_mod_cast hcast
      · exact hm.younger m e' he'
    · cases hn.symm.trans ho
  | miss hn hr =>
    rcases hright with ⟨old, hold, -⟩ | ⟨-, rfl, rfl⟩
    · obtain ⟨s, hs, -⟩ := h.dated n old hold
      rw [stored_eq_map, ← h.recorded_eq, hr] at hs
      cases hs
    · exact ⟨rfl, h⟩

/-- Both tables apply the same change to the store, and it moves no bearing. -/
theorem Mirrors.mapCold (h : Mirrors S T a b) {f : ColdStore → ColdStore}
    (hf : ∀ s n, (f s).bearing? n = s.bearing? n) :
    Mirrors S T { a with cold := a.cold.map f } { b with cold := b.cold.map f } := by
  have hst (n : NodeId) : stored { b with cold := b.cold.map f } n = b.stored n := by
    rw [stored, stored]
    cases b.cold with
    | none => rfl
    | some s => exact hf s n
  exact
    { h with
      cold_eq := by rw [h.cold_eq]
      attached := by simpa using h.attached
      dated := fun n e he => hst n ▸ h.dated n e he
      past := fun n s hs => h.past n s (hst n ▸ hs)
      hot_of_stored := fun n s hs => h.hot_of_stored n s (hst n ▸ hs) }

theorem Mirrors.tick (h : Mirrors S T a b) {clk : TickClock} (hT : T ≤ clk.wall)
    (ha : a.tick clk = some a') (hb : b.tick clk = some b') : Mirrors S clk.wall a' b' := by
  obtain ⟨u, hu, rfl⟩ := Option.map_eq_some_iff.mp ha
  obtain ⟨w, hw, rfl⟩ := Option.map_eq_some_iff.mp hb
  refine Mirrors.mapCold ?_ fun s n => ColdStore.bearing?_maybeFlush s clk.check clk.done n
  rw [settle, h.pending_eq] at hu
  refine foldlM_simulation (fun {s t e s' t'} hmem hst hs ht => ?_) (h.mono hT) hu hw
  have he : e.1 ∈ S := h.pending_mem e.1 (List.mem_map_of_mem (List.mem_of_mem_filter hmem))
  exact (hst.dropPending e.1).commit (c := e.2.copy e.1) he hs ht

/-- An operation whose copy is not misjudged is answered alike and keeps the relation. -/
theorem Mirrors.step {T' : ℚ} (h : Mirrors S T a b) {op : RouteOp} {o o' : RouteOut}
    (hop : op.isTraffic = true) (hS : ∀ n, op.learnt? = some n → n ∈ S)
    (hT : Ticks T T' op.readings) (ha : a.step op = some (a', o)) (hb : b.step op = some (b', o'))
    (hj : ∀ c now mono, op = .learn c now mono → ¬ Misjudged a b c now) :
    o = o' ∧ Mirrors S T' a' b' := by
  have hmem {r : ℚ} (hr : r ∈ op.readings) : T ≤ r ∧ r ≤ T' := ⟨hT.lower r hr, hT.upper r hr⟩
  cases step_cases ha with
  | @learn c now mono _ _ hla =>
    cases step_cases hb with
    | learn hlb =>
      obtain ⟨hlo, hhi⟩ := hmem (r := now) (by simp [RouteOp.readings])
      have hjc := hj c now mono rfl
      exact ⟨congrArg RouteOut.learned ((h.verdict_eq_iff hla hlb).mpr hjc),
        (h.learn hlo (hS c.nodeId rfl) hla hlb hjc).mono hhi⟩
  | nextHop hla =>
    cases step_cases hb with
    | nextHop hlb =>
      obtain ⟨hans, hm⟩ := h.nextHop hla hlb
      exact ⟨congrArg RouteOut.found hans, hm.mono hT.le⟩
  | @tick clk _ hla =>
    cases step_cases hb with
    | tick hlb =>
      obtain ⟨hlo, hhi⟩ := hmem (r := clk.wall) (by simp [RouteOp.readings])
      exact ⟨rfl, (h.tick hlo hla hlb).mono hhi⟩
  | flush mono =>
    cases step_cases hb with
    | flush _ => exact ⟨rfl, (h.mapCold fun s n => ColdStore.bearing?_flush s mono n).mono hT.le⟩
  | expire now nowCold => cases hop
  | warm _ => cases hop

theorem Mirrors.alike (h : Mirrors S T a b) : Alike a b where
  cold_eq := h.cold_eq
  pending_eq := h.pending_eq
  answers := fun n x a' y b' ha hb => (h.nextHop ha hb).1
  answered := by
    intro n
    by_contra hnone
    obtain ⟨r, hr, hput⟩ := nextHop_eq_none (Option.not_isSome_iff_eq_none.mp hnone)
    obtain ⟨old, hold, -⟩ := h.dates_recorded ((h.recorded_eq n).trans hr)
    exact hnone (by rw [RouteTable.nextHop, hold]; rfl)
  raises := by
    intro n ha
    obtain ⟨r, hr, hput⟩ := nextHop_eq_none ha
    obtain ⟨old, -, hd, hpast⟩ := h.dates_recorded hr
    have hle := hd.le
    have hfits : r.bearing.Fits T :=
      ⟨hd.hops_eq ▸ old.hops_lt, hd.rssi_eq ▸ old.rssi_ge, hd.rssi_eq ▸ old.rssi_le, by omega,
        hpast⟩
    exact ⟨r, hr, hfits.pack_eq_none (Option.map_eq_none_iff.mp hput)⟩

/-! ### Runs -/

/-- An empty table over an empty database. -/
def fresh (own : Option NodeId) (ttl mono₀ : ℚ) (maxHot : ℕ) : RouteTable :=
  new own ttl (some (ColdStore.new OrderedDict.empty mono₀)) maxHot

theorem mirrors_fresh {own : Option NodeId} {ttl mono₀ T₀ : ℚ} {m M : ℕ} (hM : S.card ≤ M) :
    Mirrors S T₀ (fresh own ttl mono₀ m) (fresh own ttl mono₀ M) where
  own_eq := rfl
  cold_eq := rfl
  attached := rfl
  pending_eq := rfl
  room := hM
  hot_mem := by simp [fresh, new]
  pending_mem := by simp [fresh, new]
  dated := fun n e he => by cases he
  past := fun n s hs => by cases hs
  hot_of_stored := fun n s hs => by cases hs
  younger := fun n e he => by cases he

/-- The relation holds after every prefix of a run whose copies are not misjudged
where it holds, and the answers have been the same. -/
theorem mirrors_prefix {own : Option NodeId} {ttl mono₀ T₀ : ℚ} {m M : ℕ} {ops : List RouteOp}
    (hM : (learntNodes ops).card ≤ M) (hops : ∀ op ∈ ops, op.isTraffic = true)
    (hclock : Clocked RouteOp.readings T₀ ops)
    (hj : ∀ pre c now mono post a b osa osb T, ops = pre ++ .learn c now mono :: post →
      exec step (fresh own ttl mono₀ m) pre = some (a, osa) →
      exec step (fresh own ttl mono₀ M) pre = some (b, osb) →
      Mirrors (learntNodes ops) T a b → ¬ Misjudged a b c now)
    {pre post : List RouteOp} (hpre : ops = pre ++ post) {osa osb : List RouteOut}
    (ha : exec step (fresh own ttl mono₀ m) pre = some (a, osa))
    (hb : exec step (fresh own ttl mono₀ M) pre = some (b, osb)) :
    osa = osb ∧ ∃ T, Mirrors (learntNodes ops) T a b := by
  have hinv := exec_prefix (fun pre a =>
    ∀ osa b osb, exec step (fresh own ttl mono₀ m) pre = some (a, osa) →
      exec step (fresh own ttl mono₀ M) pre = some (b, osb) →
      osa = osb ∧ ∃ T, Mirrors (learntNodes ops) T a b ∧
        ∀ post, ops = pre ++ post → Clocked RouteOp.readings T post) ?_ ?_ hpre ha
  · obtain ⟨hout, T, hT, -⟩ := hinv osa b osb ha hb
    exact ⟨hout, T, hT⟩
  · intro osa b osb ha hb
    obtain ⟨-, rfl⟩ := Prod.mk.inj (Option.some.inj ha)
    obtain ⟨rfl, rfl⟩ := Prod.mk.inj (Option.some.inj hb)
    refine ⟨rfl, T₀, mirrors_fresh hM, fun post hpost => ?_⟩
    obtain rfl : ops = post := hpost
    exact hclock
  · rintro pre op post a osa a' o hpre ha hinv hstep osa' b' osb' ha' hb'
    obtain ⟨b, osb, os₂, hb₁, hb₂, rfl⟩ := exec_append_iff.mp hb'
    obtain ⟨b'', o', os₃, hb₃, hb₄, rfl⟩ := exec_cons_iff.mp hb₂
    obtain ⟨rfl, rfl⟩ := Prod.mk.inj (Option.some.inj hb₄)
    obtain ⟨hout, T, hT, hclk⟩ := hinv osa b osb ha hb₁
    obtain ⟨T', htick, hclk'⟩ := (hclk _ hpre).cons
    have hmem : op ∈ ops := by rw [hpre]; simp
    have hlearnt (n : NodeId) (hn : op.learnt? = some n) : n ∈ learntNodes ops :=
      List.mem_toFinset.mpr (List.mem_filterMap.mpr ⟨op, hmem, hn⟩)
    obtain ⟨hans, hm⟩ := hT.step (hops op hmem) hlearnt htick hstep hb₃ fun c now mono hop =>
      hj pre c now mono post a b osa osb T (hop ▸ hpre) ha hb₁ hT
    have hpost' : exec step (fresh own ttl mono₀ m) (pre ++ [op]) = some (a', osa ++ [o]) :=
      exec_append_iff.mpr ⟨a, osa, [o], ha, exec_cons_iff.mpr ⟨a', o, [], hstep, rfl, rfl⟩, rfl⟩
    obtain ⟨-, rfl⟩ := Prod.mk.inj (Option.some.inj (hpost'.symm.trans ha'))
    refine ⟨by rw [hout, hans], T', hm, fun post' hpost => ?_⟩
    rw [hpre, List.append_assoc] at hpost
    obtain rfl : post = post' := (List.cons.inj (List.append_cancel_left hpost)).2
    exact hclk'

end RouteTable

/-- For every run of announces, look-ups, ticks and flushes on empty tables: the
bounded table and one with room for every node answer every call of the run alike,
the verdicts of `learn` with the rest, and stay alike in every state, exactly when
no announce of the run is misjudged. -/
theorem evictions_invisible_iff {own : Option NodeId} {ttl mono₀ T₀ : ℚ} {m M : ℕ}
    {ops : List RouteOp} (hM : (learntNodes ops).card ≤ M)
    (hops : ∀ op ∈ ops, op.isTraffic = true) (hclock : Clocked RouteOp.readings T₀ ops)
    {a₁ b₁ : RouteTable} {osa₁ osb₁ : List RouteOut}
    (hrunA : exec RouteTable.step (RouteTable.fresh own ttl mono₀ m) ops = some (a₁, osa₁))
    (hrunB : exec RouteTable.step (RouteTable.fresh own ttl mono₀ M) ops = some (b₁, osb₁)) :
    (∀ pre post a b osa osb, ops = pre ++ post →
      exec RouteTable.step (RouteTable.fresh own ttl mono₀ m) pre = some (a, osa) →
      exec RouteTable.step (RouteTable.fresh own ttl mono₀ M) pre = some (b, osb) →
        osa = osb ∧ RouteTable.Alike a b) ↔
    (∀ pre c now mono post a b osa osb, ops = pre ++ .learn c now mono :: post →
      exec RouteTable.step (RouteTable.fresh own ttl mono₀ m) pre = some (a, osa) →
      exec RouteTable.step (RouteTable.fresh own ttl mono₀ M) pre = some (b, osb) →
      ¬ RouteTable.Misjudged a b c now) := by
  constructor
  · intro hall
    have hj : ∀ pre c now mono post a b osa osb T, ops = pre ++ .learn c now mono :: post →
        exec RouteTable.step (RouteTable.fresh own ttl mono₀ m) pre = some (a, osa) →
        exec RouteTable.step (RouteTable.fresh own ttl mono₀ M) pre = some (b, osb) →
        RouteTable.Mirrors (learntNodes ops) T a b → ¬ RouteTable.Misjudged a b c now := by
      intro pre c now mono post a b osa osb T hpre ha hb hm
      have hnext {t₀ t t₁ : RouteTable} {os os₁ : List RouteOut}
          (hrun : exec RouteTable.step t₀ ops = some (t₁, os₁))
          (hx : exec RouteTable.step t₀ pre = some (t, os)) :
          ∃ v t', t.learn c now mono = some (v, t') ∧
            exec RouteTable.step t₀ (pre ++ [.learn c now mono]) =
              some (t', os ++ [.learned v]) := by
        rw [hpre, ← List.singleton_append, ← List.append_assoc] at hrun
        obtain ⟨t', os₂, -, h₂, -⟩ := exec_append_iff.mp hrun
        obtain ⟨u, os₃, os₄, h₃, h₄, rfl⟩ := exec_append_iff.mp h₂
        obtain ⟨rfl, rfl⟩ := Prod.mk.inj (Option.some.inj (hx.symm.trans h₃))
        obtain ⟨w, o, os₅, h₅, h₆, rfl⟩ := exec_cons_iff.mp h₄
        obtain ⟨rfl, rfl⟩ := Prod.mk.inj (Option.some.inj h₆)
        cases RouteTable.step_cases h₅ with
        | learn hl => exact ⟨_, w, hl, h₂⟩
      obtain ⟨v, a', hla, ha'⟩ := hnext hrunA ha
      obtain ⟨w, b', hlb, hb'⟩ := hnext hrunB hb
      obtain ⟨hout, -⟩ := hall _ post a' b' _ _ (by simpa using hpre) ha' hb'
      obtain ⟨-, hlast⟩ := List.append_inj' hout rfl
      exact (hm.verdict_eq_iff hla hlb).mp (RouteOut.learned.inj (List.cons.inj hlast).1)
    intro pre c now mono post a b osa osb hpre ha hb
    obtain ⟨-, T, hT⟩ := RouteTable.mirrors_prefix hM hops hclock hj hpre ha hb
    exact hj pre c now mono post a b osa osb T hpre ha hb hT
  · intro hj pre post a b osa osb hpre ha hb
    obtain ⟨hout, T, hT⟩ := RouteTable.mirrors_prefix hM hops hclock
      (fun pre c now mono post a b osa osb _ hp ha hb _ =>
        hj pre c now mono post a b osa osb hp ha hb) hpre ha hb
    exact ⟨hout, hT.alike⟩

/-- Two nodes in a table of one entry: the first is evicted, then looked up again. -/
def promotionRun : List RouteOp :=
  [.learn ⟨nodeIdOf 1, macOf 1, 1, some (-60), none, none, ""⟩ 100 0,
    .learn ⟨nodeIdOf 2, macOf 2, 0, none, none, none, ""⟩ 101 0, .nextHop (nodeIdOf 1)]

theorem alike_promotionRun : ∃ a b os,
    exec RouteTable.step (RouteTable.fresh none defaultTtl 0 1) promotionRun = some (a, os) ∧
    exec RouteTable.step (RouteTable.fresh none defaultTtl 0 2) promotionRun = some (b, os) ∧
    RouteTable.Alike a b := by
  have hA : (exec RouteTable.step (RouteTable.fresh none defaultTtl 0 1)
      promotionRun).isSome = true := by decide +kernel
  have hB : (exec RouteTable.step (RouteTable.fresh none defaultTtl 0 2)
      promotionRun).isSome = true := by decide +kernel
  obtain ⟨⟨a, osa⟩, ha⟩ := Option.isSome_iff_exists.mp hA
  obtain ⟨⟨b, osb⟩, hb⟩ := Option.isSome_iff_exists.mp hB
  have hclock : Clocked RouteOp.readings 0 promotionRun := by
    unfold Clocked
    decide +kernel
  suffices h : osa = osb ∧ RouteTable.Alike a b by
    obtain ⟨rfl, hab⟩ := h
    exact ⟨a, b, osa, ha, hb, hab⟩
  refine (evictions_invisible_iff ?_ ?_ hclock ha hb).mpr ?_ promotionRun [] a b osa osb (by simp)
    ha hb
  · decide
  · decide
  · -- neither node is hot in the larger table when it is learned
    rintro pre c now mono post a b osa osb hpre - hb ⟨-, old, hold, -⟩
    have hfresh {pre : List RouteOp} {n : NodeId}
        (hcold : (exec RouteTable.step (RouteTable.fresh none defaultTtl 0 2) pre).map
          (fun r => r.1.hot.get? n) = some none)
        (hx : exec RouteTable.step (RouteTable.fresh none defaultTtl 0 2) pre = some (b, osb)) :
        b.hot.get? n = none := by
      rw [hx] at hcold
      exact Option.some.inj hcold
    rcases pre with _ | ⟨op₁, _ | ⟨op₂, pre⟩⟩
    · obtain ⟨rfl, -, -⟩ := RouteOp.learn.inj (List.cons.inj hpre).1
      cases (hfresh (by decide +kernel) hb).symm.trans hold
    · obtain ⟨rfl, htail⟩ := List.cons.inj hpre
      obtain ⟨rfl, -, -⟩ := RouteOp.learn.inj (List.cons.inj htail).1
      cases (hfresh (by decide +kernel) hb).symm.trans hold
    · have htail : [RouteOp.nextHop (nodeIdOf 1)] = pre ++ .learn c now mono :: post :=
        (List.cons.inj (List.cons.inj hpre).2).2
      have hmem : RouteOp.learn c now mono ∈ pre ++ .learn c now mono :: post := by simp
      rw [← htail] at hmem
      simp at hmem

/-- A longer copy of one flood, after another node's announce has evicted the route. -/
def evictedRun : List RouteOp :=
  [.learn ⟨nodeIdOf 1, macOf 1, 0, some (-60), none, none, ""⟩ 100 0,
    .learn ⟨nodeIdOf 2, macOf 2, 0, none, none, none, ""⟩ (501 / 5) 0,
    .learn ⟨nodeIdOf 1, macOf 2, 2, some (-60), none, none, ""⟩ (201 / 2) 0]

/-- The table of one entry takes the longer route, the larger one keeps its own. -/
theorem eviction_changes_route : ∃ a b osa osb,
    exec RouteTable.step (RouteTable.fresh none defaultTtl 0 1) evictedRun = some (a, osa) ∧
    exec RouteTable.step (RouteTable.fresh none defaultTtl 0 2) evictedRun = some (b, osb) ∧
    (∃ a', a.nextHop (nodeIdOf 1) = some (some (macOf 2), a')) ∧
    ∃ b', b.nextHop (nodeIdOf 1) = some (some (macOf 1), b') := by
  have hans {m : ℕ} {x : Option Mac}
      (h : ((exec RouteTable.step (RouteTable.fresh none defaultTtl 0 m) evictedRun).bind
        fun r => r.1.nextHop (nodeIdOf 1)).map Prod.fst = some x) :
      ∃ t os, exec RouteTable.step (RouteTable.fresh none defaultTtl 0 m) evictedRun =
        some (t, os) ∧ ∃ t', t.nextHop (nodeIdOf 1) = some (x, t') := by
    obtain ⟨⟨y, t'⟩, hy, rfl⟩ := Option.map_eq_some_iff.mp h
    obtain ⟨⟨t, os⟩, hx, hn⟩ := Option.bind_eq_some_iff.mp hy
    exact ⟨t, os, hx, t', hn⟩
  obtain ⟨a, osa, ha, ha'⟩ := hans (m := 1) (x := some (macOf 2)) (by decide +kernel)
  obtain ⟨b, osb, hb, hb'⟩ := hans (m := 2) (x := some (macOf 1)) (by decide +kernel)
  exact ⟨a, b, osa, osb, ha, hb, ha', hb'⟩

end Beachedmesh
