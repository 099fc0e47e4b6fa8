import Beachedmesh.Bystander

/-!
# How long the flood guard lasts

A route is dated with the whole second of its write, and the guard compares that
date with the running clock. So the window in which stragglers are kept away from
the route begins with the second of the write, not with the write. It ends early
when the entry leaves the hot table, and starts anew when a look-up reads it back.
-/
namespace Beachedmesh
open Machine

/-- A copy that proves nothing within the guard: longer than the held route, or as long
over another neighbour and no stronger. -/
def Packed.Straggles (e : Packed) (c : Copy) : Prop :=
  e.hops < c.hops ∨ c.hops = e.hops ∧ c.nextHop ≠ e.nextHop ∧ stronger c.rssi e.rssi = false

namespace RouteTable

variable {t t' : RouteTable} {x : NodeId} {e : Packed} {w now : ℚ}

/-- The step writes the route of `x` at time `w`, as the entry `e`: a copy is committed, or
a settle. -/
inductive Writes (t : RouteTable) (x : NodeId) (w : ℚ) (e : Packed) : RouteOp → RouteOut → Prop
  | learned (c : Copy) (mono : ℚ) (v : LearnVerdict) : c.nodeId = x →
      v = .new ∨ v = .better ∨ v = .refreshed →
      pack c.nextHop c.hops (c.rssi.getD noRssi) (pyInt w) = some e →
      Writes t x w e (.learn c w mono) (.learned v)
  | settled (q : Settle) (settled check done : ℚ) : t.pending.get? x = some q → q.commitAt ≤ w →
      pack q.nextHop q.hops q.rssi (pyInt w) = some e →
      Writes t x w e (.tick ⟨w, settled, check, done⟩) .done

/-- Everything held or stored of `x` is the route of `e`, its date aside. -/
structure Carries (t : RouteTable) (x : NodeId) (e : Packed) : Prop where
  hot : ∀ k, t.hot.get? x = some k → k.nextHop = e.nextHop ∧ k.hops = e.hops ∧ k.rssi = e.rssi
  stored : ∀ b, t.stored x = some b → Bearing.IsPacked b e

/-- A written route carries the whole second, nothing is left pending, and no other route
is held or stored. -/
theorem Writes.wrote {op : RouteOp} {o : RouteOut} (hw : t.Writes x w e op o)
    (hx : t.step op = some (t', o)) :
    (e.lastSeen : ℤ) = pyInt w ∧ t'.pending.get? x = none ∧ t'.Carries x e := by
  have hpacked {u : RouteTable} {b : Bearing}
      (hk : pack b.nextHop b.hops (b.rssi.getD noRssi) (pyInt w) = some e)
      (hhot : ∀ k, u.hot.get? x = some k → k = e)
      (hst : ∀ b', u.stored x = some b' → b' = b) : u.Carries x e := by
    obtain ⟨hnh, hhops, hrssi, -⟩ := pack_eq_some_iff.mp hk
    refine ⟨fun k hk' => ?_, fun b' hb' => ?_⟩
    · rw [hhot k hk']
      exact ⟨rfl, rfl, rfl⟩
    · rw [hst b' hb']
      exact ⟨hnh, hhops, hrssi⟩
  cases hw with
  | learned c mono v hc hv hpack =>
    subst hc
    have hl : t.learn c w mono = some (v, t') := by
      cases step_cases hx with
      | learn hl => exact hl
    cases learn_cases hl with
    | committed v t' _ _ hcommit =>
      have hst := stored_commit (x := c.nodeId) hcommit
      obtain ⟨k, hk, rfl⟩ := commit_eq_some_iff.mp hcommit
      obtain rfl := Option.some.inj (hpack.symm.trans hk)
      refine ⟨(pack_eq_some_iff.mp hpack).2.2.2, ?_,
        hpacked (b := (c.hearing w).bearing) hpack (fun k hk => ?_) fun b' hb' => ?_⟩
      · show (t.pending.erase c.nodeId).get? c.nodeId = none
        rw [OrderedDict.get?_erase, if_pos rfl]
      · rcases get?_of_get?_place (t := t.dropPending c.nodeId) hk with ⟨-, rfl⟩ | ⟨hne, -⟩
        · rfl
        · exact absurd rfl hne
      · rw [hst, if_pos rfl] at hb'
        obtain ⟨-, -, rfl⟩ := Option.map_eq_some_iff.mp hb'
        rfl
    | _ => rcases hv with hv | hv | hv <;> cases hv
  | settled q settled check done hq hdue hpack =>
    have hu : t.tick ⟨w, settled, check, done⟩ = some t' := by
      cases step_cases hx with
      | tick hu => exact hu
    cases tick_cases hu x with
    | idle hno _ _ _ => exact absurd hdue (not_le.mpr (hno q hq))
    | committed q' k hq' _ hk hp hh hst =>
      obtain rfl := Option.some.inj (hq.symm.trans hq')
      obtain rfl := Option.some.inj (hpack.symm.trans hk)
      refine ⟨(pack_eq_some_iff.mp hpack).2.2.2, hp,
        hpacked (b := ((q.copy x).hearing w).bearing) hpack hh fun b' hb' => ?_⟩
      rw [hst] at hb'
      obtain ⟨-, -, rfl⟩ := Option.map_eq_some_iff.mp hb'
      rfl

/-- While the route stays as it is, a settle opens only once the guard has passed. -/
def Undisturbed (x : NodeId) (e : Packed) (now : ℚ) (t : RouteTable) : Prop :=
  t.hot.get? x = some e ∧ (t.pending.get? x = none ∨ floodGuard < now - e.lastSeen)

theorem Undisturbed.step (h : Undisturbed x e now t) {op : RouteOp} {o : RouteOut}
    (hop : ∀ r ∈ op.readings, r ≤ now) (hx : t.step op = some (t', o))
    (hkeep : t'.hot.get? x = some e) : Undisturbed x e now t' := by
  obtain ⟨he, hp⟩ := h
  refine ⟨hkeep, ?_⟩
  have hsame (heq : t'.pending.get? x = t.pending.get? x) :
      t'.pending.get? x = none ∨ floodGuard < now - e.lastSeen := heq.symm ▸ hp
  cases step_cases hx with
  | @learn c at' mono _ _ hl =>
    by_cases hc : c.nodeId = x
    · subst hc
      have hat : at' ≤ now := hop at' (by simp [RouteOp.readings])
      have herased : (t.pending.erase c.nodeId).get? c.nodeId = none := by
        rw [OrderedDict.get?_erase, if_pos rfl]
      cases learn_cases hl with
      | self _ => exact hp
      | committed v t' _ _ hcommit =>
        obtain ⟨k, -, rfl⟩ := commit_eq_some_iff.mp hcommit
        exact Or.inl herased
      | keptEqual old _ _ _ _ _ _ => exact Or.inl herased
      | settling old _ hold _ hlate =>
        obtain rfl := Option.some.inj (he.symm.trans hold)
        exact Or.inr (by linarith)
      | keptWorse old _ _ _ _ => exact hp
    · exact hsame (leaves_learn hl hc).pending
  | nextHop hl => exact hsame (leaves_nextHop hl).pending
  | tick hu =>
    cases tick_cases hu x with
    | idle _ hp' _ _ => exact hsame hp'
    | committed q k _ _ _ hp' _ _ => exact Or.inl hp'
  | flush mono => exact hsame (leaves_flush t mono x).pending
  | expire now' nowCold => exact hsame (leaves_expire t now' nowCold x).pending
  | warm hu => exact hsame (by rw [(warm_rest hu).2.1])

/-- The step writes the route of `x` by a commit, or fills the table from disk, as it is
done before the first announce. -/
def Rewrites (t : RouteTable) (x : NodeId) (op : RouteOp) : Prop :=
  op.isWarm = true ∨ ∃ w e o t', t.step op = some (t', o) ∧ t.Writes x w e op o

theorem Carries.leaves (h : t.Carries x e) (hl : t.Leaves x t') : t'.Carries x e := by
  refine ⟨fun k hk => ?_, fun b hb => h.stored b (hl.stored b hb)⟩
  rcases hl.hot k hk with hold | ⟨-, b, hb, hnh, hhops, hrssi⟩
  · exact h.hot k hold
  · obtain ⟨hnh', hhops', hrssi'⟩ := h.stored b hb
    exact ⟨hnh.trans hnh'.symm, hhops.trans hhops'.symm, hrssi.trans hrssi'.symm⟩

/-- A hearing noted of the held route is one of the same route. -/
theorem Carries.note (h : t.Carries x e) {u : RouteTable} (hhot : u.hot = t.hot)
    {old : Packed} (hold : t.hot.get? x = some old) (c : Copy) (at' mono : ℚ) :
    (u.note x (old.heard c at') mono).Carries x e := by
  obtain ⟨hnh, hhops, hrssi⟩ := h.hot old hold
  refine ⟨fun k hk => h.hot k (hhot ▸ hk), fun b hb => ?_⟩
  rw [stored_note, if_pos rfl] at hb
  obtain ⟨-, -, rfl⟩ := Option.map_eq_some_iff.mp hb
  exact ⟨hnh.symm, hhops.symm, hrssi.symm⟩

/-- Without a write the route stays what it is, in memory and on disk. -/
theorem Carries.step (h : t.Carries x e) {op : RouteOp} {o : RouteOut}
    (hno : ¬ t.Rewrites x op) (hx : t.step op = some (t', o)) : t'.Carries x e := by
  have hwrites (v : ℚ) (k : Packed) : ¬ t.Writes x v k op o :=
    fun hw => hno (Or.inr ⟨v, k, o, t', hx, hw⟩)
  cases step_cases hx with
  | @learn c at' mono v _ hl =>
    by_cases hc : c.nodeId = x
    · subst hc
      cases learn_cases hl with
      | self _ => exact h
      | committed v t' _ hcommits hcommit =>
        obtain ⟨k, hk, -⟩ := commit_eq_some_iff.mp hcommit
        refine absurd (.learned c mono v rfl ?_ hk) (hwrites at' k)
        generalize t.hot.get? c.nodeId = held at hcommits
        cases hcommits <;> simp
      | keptEqual old _ hold _ _ _ _ =>
        exact h.note (u := t.dropPending c.nodeId) rfl hold c at' mono
      | settling old _ hold _ _ =>
        exact h.note (u := { t with pending := t.sharpened c at' }) rfl hold c at' mono
      | keptWorse old _ hold _ _ => exact h.note rfl hold c at' mono
    · exact h.leaves (leaves_learn hl hc)
  | nextHop hl => exact h.leaves (leaves_nextHop hl)
  | @tick clk _ hu =>
    cases tick_cases hu x with
    | idle _ _ hh hst => exact ⟨fun k hk => h.hot k (hh k hk), fun b hb => h.stored b (hst ▸ hb)⟩
    | committed q k hq hdue hk _ _ _ =>
      exact absurd (.settled q clk.settled clk.check clk.done hq hdue hk) (hwrites clk.wall k)
  | flush mono => exact h.leaves (leaves_flush t mono x)
  | expire now' nowCold => exact h.leaves (leaves_expire t now' nowCold x)
  | warm hu => exact absurd (Or.inl rfl) hno

/-- A straggler is kept, with the route and every settle as they were, exactly while an
entry holds it off and no settle waits that it would call off. -/
theorem Carries.kept_iff (h : t.Carries x e) {c : Copy} (hc : c.nodeId = x) (hs : e.Straggles c)
    (now mono : ℚ) :
    (∃ u, t.learn c now mono = some (.kept, u) ∧ u.hot = t.hot ∧ u.pending = t.pending) ↔
      t.ownId ≠ some x ∧ ∃ k, t.hot.get? x = some k ∧ now ≤ k.lastSeen + floodGuard ∧
        (e.hops < c.hops ∨ t.pending.get? x = none) := by
  subst hc
  constructor
  · rintro ⟨u, hl, -, hp⟩
    cases learn_cases hl with
    | committed v u _ hcommits _ =>
      generalize t.hot.get? c.nodeId = held at hcommits
      cases hcommits
    | keptEqual old hown hold _ _ hg _ =>
      have hp : t.pending.erase c.nodeId = t.pending := hp
      refine ⟨hown, old, hold, by linarith, Or.inr ?_⟩
      exact OrderedDict.get?_eq_none_iff.mpr (OrderedDict.erase_eq_self_iff.mp hp)
    | keptWorse old hown hold hlt hg =>
      obtain ⟨-, hhops, -⟩ := h.hot old hold
      exact ⟨hown, old, hold, by linarith, Or.inl (hhops ▸ hlt)⟩
  · rintro ⟨hown, k, hk, hguard, hclear⟩
    obtain ⟨hnh, hhops, hrssi⟩ := h.hot k hk
    have hin : now - k.lastSeen ≤ floodGuard := by linarith
    rw [learn, if_neg hown]
    simp only [hk, hnh, hhops, hrssi]
    rcases hs with hlonger | ⟨heq, hhop, hweak⟩
    · rw [if_neg (by omega), if_neg (not_lt.mpr hin)]
      exact ⟨_, rfl, rfl, rfl⟩
    · have hnone := hclear.resolve_left (by omega)
      rw [if_pos heq.le, if_neg (by omega), if_neg hhop,
        if_pos ⟨hin, by rw [hweak]; exact Bool.false_ne_true⟩]
      exact ⟨_, rfl, rfl,
        OrderedDict.erase_eq_self_iff.mpr (OrderedDict.get?_eq_none_iff.mp hnone)⟩

end RouteTable

open RouteTable

/-- A route is written at time `w` by a commit or a settle, and no other commit of it
follows, whatever else happens. A straggler heard at any later time is kept, with the
route and every settle as they were, exactly when the hot table has an entry of the
node that is dated within the guard, and no settle waits for a copy as long as it.
While the entry stays where it was written, this is until the guard after the whole
second of the write. -/
theorem straggler_kept_iff {t t₁ t₂ : RouteTable} {x : NodeId} {w : ℚ} {op : RouteOp}
    {o : RouteOut} {e : Packed} (hw : t.Writes x w e op o) (hstep : t.step op = some (t₁, o))
    {ops : List RouteOp} {os : List RouteOut} (hx : exec RouteTable.step t₁ ops = some (t₂, os))
    (hquiet : EachStep RouteTable.step (fun s i => ¬ s.Rewrites x i) t₁ ops)
    {c : Copy} {now mono : ℚ}
    (hclock : Clocked RouteOp.readings w (ops ++ [.learn c now mono])) (hc : c.nodeId = x)
    (hs : e.Straggles c) :
    ((∃ u, t₂.learn c now mono = some (.kept, u) ∧ u.hot = t₂.hot ∧ u.pending = t₂.pending) ↔
      t₂.ownId ≠ some x ∧ ∃ k, t₂.hot.get? x = some k ∧ now ≤ k.lastSeen + floodGuard ∧
        (e.hops < c.hops ∨ t₂.pending.get? x = none)) ∧
    ∀ os', t₁.hot.get? x = some e →
      exec (keeping (fun s => s.hot.get? x = some e) RouteTable.step) t₁ ops = some (t₂, os') →
      ((∃ u, t₂.learn c now mono = some (.kept, u) ∧ u.hot = t₂.hot ∧ u.pending = t₂.pending) ↔
        t₂.ownId ≠ some x ∧ now ≤ pyInt w + floodGuard) := by
  obtain ⟨hdate, hnone, hcarries⟩ := hw.wrote hstep
  have hcarries : t₂.Carries x e := by
    refine exec_prefix (fun _ s => s.Carries x e) hcarries
      (fun pre i post s os s' o his hpre hinv hone => ?_) (List.append_nil ops).symm hx
    exact hinv.step (hquiet pre i post s os his hpre) hone
  refine ⟨hcarries.kept_iff hc hs now mono, fun os' he hkeep => ?_⟩
  have hcast : (e.lastSeen : ℚ) = pyInt w := by exact_mod_cast hdate
  have hu : Undisturbed x e now t₂ := by
    refine exec_invariant (P := fun i => ∀ r ∈ i.readings, r ≤ now)
      (fun {s i s' o} (hinv : Undisturbed x e now s) hop hone => ?_) ⟨he, Or.inl hnone⟩ ?_ hkeep
    swap
    · intro i hi r hr
      exact hclock.le_of_append hi (List.mem_singleton_self _) hr (by simp [RouteOp.readings])
    obtain ⟨hone, hkept⟩ := keeping_eq_some_iff.mp hone
    exact hinv.step hop hone hkept
  rw [hcarries.kept_iff hc hs now mono, ← hcast]
  refine and_congr_right fun _ => ⟨?_, fun hin => ⟨e, hu.1, hin, Or.inr ?_⟩⟩
  · rintro ⟨k, hk, hin, -⟩
    obtain rfl := Option.some.inj (hu.1.symm.trans hk)
    exact hin
  · exact hu.2.resolve_right (by linarith)

/-- One entry of memory over an empty database, and a settle of node 1 that is due. -/
def settledTable : RouteTable :=
  { RouteTable.new none defaultTtl (some (ColdStore.new OrderedDict.empty 0)) 1 with
    pending := OrderedDict.empty.insert (nodeIdOf 1) ⟨100, macOf 9, 2, -50⟩ }

/-- Another node's announce evicts the route, and a look-up brings it back. -/
def evictedAndBack : List RouteOp :=
  [.learn ⟨nodeIdOf 2, macOf 2, 0, none, none, none, ""⟩ 101 0, .nextHop (nodeIdOf 1)]

theorem straggler_kept_iff_settled : ∃ t₁ t₂ os,
    settledTable.step (.tick ⟨401 / 4, 0, 0, 0⟩) = some (t₁, .done) ∧
    exec RouteTable.step t₁ evictedAndBack = some (t₂, os) ∧
    ∃ u, t₂.learn ⟨nodeIdOf 1, macOf 3, 5, none, none, none, ""⟩ 102 0 = some (.kept, u) ∧
      u.hot = t₂.hot ∧ u.pending = t₂.pending := by
  have hrun : (settledTable.step (.tick ⟨401 / 4, 0, 0, 0⟩)).bind (fun r =>
      (pack (macOf 9) 2 (-50) (pyInt (401 / 4))).bind fun e =>
        (exec RouteTable.step r.1 evictedAndBack).bind fun q =>
          (q.1.hot.get? (nodeIdOf 1)).map fun k =>
            decide (r.2 = .done ∧ e.hops = 2 ∧ q.1.ownId = none ∧ k.lastSeen = 100)) =
      some true := by
    decide +kernel
  obtain ⟨⟨t₁, o⟩, hstep, hrun⟩ := Option.bind_eq_some_iff.mp hrun
  obtain ⟨e, he, hrun⟩ := Option.bind_eq_some_iff.mp hrun
  obtain ⟨⟨t₂, os⟩, hx, hrun⟩ := Option.bind_eq_some_iff.mp hrun
  obtain ⟨k, hk, hrun⟩ := Option.map_eq_some_iff.mp hrun
  obtain ⟨rfl, hhops, hown, hdate⟩ := of_decide_eq_true hrun
  have hclock : Clocked RouteOp.readings (401 / 4) (evictedAndBack ++
      [.learn ⟨nodeIdOf 1, macOf 3, 5, none, none, none, ""⟩ 102 0]) := by
    unfold Clocked
    decide +kernel
  have hquiet : EachStep RouteTable.step (fun s i => ¬ s.Rewrites (nodeIdOf 1) i) t₁
      evictedAndBack := by
    rintro pre i post s os' hpre - (hwarm | ⟨w, k, o, s', -, hw⟩)
    all_goals
      have hi : i ∈ evictedAndBack := by rw [hpre]; simp
      simp only [evictedAndBack, List.mem_cons, List.not_mem_nil, or_false] at hi
      rcases hi with rfl | rfl
    · cases hwarm
    · cases hwarm
    · cases hw with
      | learned c mono v hc _ _ => exact absurd hc (by decide)
    · cases hw
  have hkept := (straggler_kept_iff (.settled ⟨100, macOf 9, 2, -50⟩ 0 0 0 rfl (by norm_num) he)
    hstep hx hquiet hclock rfl (Or.inl (by rw [hhops]; decide))).1.mpr
    ⟨by rw [hown]; exact (Option.some_ne_none _).symm, k, hk, by rw [hdate]; decide +kernel,
      Or.inl (by rw [hhops]; decide)⟩
  exact ⟨t₁, t₂, os, hstep, hx, hkept⟩

/-- Written at 100.9 and dated 100: at 103.8, within three seconds of the write, a longer
copy already opens a settle. -/
theorem straggler_settles : ∃ (t t₁ : RouteTable) (o : RouteOut) (e : Packed),
    t.Writes (nodeIdOf 1) (1009 / 10) e
      (.learn ⟨nodeIdOf 1, macOf 2, 1, none, none, none, ""⟩ (1009 / 10) 0) o ∧
    t.step (.learn ⟨nodeIdOf 1, macOf 2, 1, none, none, none, ""⟩ (1009 / 10) 0) = some (t₁, o) ∧
    t₁.hot.get? (nodeIdOf 1) = some e ∧
    e.Straggles ⟨nodeIdOf 1, macOf 3, 5, none, none, none, ""⟩ ∧
    (1038 / 10 : ℚ) ≤ 1009 / 10 + floodGuard ∧
    ∃ u, t₁.learn ⟨nodeIdOf 1, macOf 3, 5, none, none, none, ""⟩ (1038 / 10) 0 =
        some (.settling, u) ∧ u.pending ≠ t₁.pending := by
  have hrun : ((RouteTable.new none defaultTtl none 10).step
      (.learn ⟨nodeIdOf 1, macOf 2, 1, none, none, none, ""⟩ (1009 / 10) 0)).bind (fun r =>
      (pack (macOf 2) 1 noRssi (pyInt (1009 / 10))).bind fun e =>
        (r.1.learn ⟨nodeIdOf 1, macOf 3, 5, none, none, none, ""⟩ (1038 / 10) 0).map fun q =>
          decide (r.2 = .learned .new ∧ r.1.hot.get? (nodeIdOf 1) = some e ∧ e.hops = 1 ∧
            q.1 = .settling ∧ q.2.pending ≠ r.1.pending)) = some true := by
    decide +kernel
  obtain ⟨⟨t₁, o⟩, hstep, hrun⟩ := Option.bind_eq_some_iff.mp hrun
  obtain ⟨e, he, hrun⟩ := Option.bind_eq_some_iff.mp hrun
  obtain ⟨⟨v, u⟩, hl, hrun⟩ := Option.map_eq_some_iff.mp hrun
  obtain ⟨rfl, hhot, hhops, rfl, hpending⟩ := of_decide_eq_true hrun
  exact ⟨_, t₁, _, e, .learned _ 0 .new rfl (Or.inl rfl) he, hstep, hhot,
    Or.inl (by rw [hhops]; decide), by norm_num [floodGuard], u, hl, hpending⟩

end Beachedmesh
