import Beachedmesh.FlushTiming
import Beachedmesh.Bystander

/-!
# How the records of a route age

Three records of a route age in three ways: the hot entry by whole seconds, the row
by its exact time, the buffered hearing not at all. On one clock the buffer is hardly
older than its last flush, and a tick bounds that age; what was heard within the TTL
is kept by every `expire`, since a stored record is never dated back.
-/
namespace Beachedmesh
open Machine

/-! ### The write buffer -/

namespace ColdStore

variable {s : ColdStore} {δ T T' : ℚ} {n : NodeId} {x : Hearing}

/-- At time `T`: what is buffered was heard at most `δ` before the last flush. -/
structure Dated (δ T : ℚ) (s : ColdStore) : Prop where
  le : s.lastFlush ≤ T
  buffered : ∀ n x, s.buf.get? n = some x → s.lastFlush - δ ≤ x.lastSeen

theorem Dated.mono (h : s.Dated δ T) (hT : T ≤ T') : s.Dated δ T' := ⟨h.le.trans hT, h.buffered⟩

theorem dated_new {rows : OrderedDict NodeId Row} {mono₀ : ℚ} (hT : mono₀ ≤ T) :
    (new rows mono₀).Dated δ T :=
  ⟨hT, fun n x hx => by cases hx⟩

theorem dated_flush (s : ColdStore) {mono : ℚ} (hT : mono ≤ T) : (s.flush mono).Dated δ T := by
  refine ⟨(lastFlush_flush s mono).le.trans hT, fun n x hx => ?_⟩
  rw [buf_flush] at hx
  cases hx

theorem Dated.enter (h : s.Dated δ T) (hx : T - δ ≤ x.lastSeen) (n : NodeId) :
    (s.enter n x).Dated δ T := by
  refine ⟨h.le, fun m y hy => ?_⟩
  simp only [ColdStore.enter, OrderedDict.get?_insert] at hy
  split_ifs at hy with hm
  · obtain rfl := Option.some.inj hy
    have hle := h.le
    rw [merge_lastSeen]
    change s.lastFlush - δ ≤ x.lastSeen
    linarith
  · exact h.buffered m y hy

theorem Dated.buffer (h : s.Dated δ T) (hx : T - δ ≤ x.lastSeen) (hT : T ≤ T') {mono : ℚ}
    (hmono : mono ≤ T') (n : NodeId) : (s.buffer n x mono).Dated δ T' := by
  rcases buffer_cases s n x mono with he | he <;> rw [he]
  · exact (h.enter hx n).mono hT
  · exact dated_flush _ hmono

theorem Dated.maybeFlush (h : s.Dated δ T) (hT : T ≤ T') {check done : ℚ} (hdone : done ≤ T') :
    (s.maybeFlush check done).Dated δ T' := by
  unfold ColdStore.maybeFlush
  split_ifs
  · exact dated_flush s hdone
  · exact h.mono hT

theorem maybeFlush_of_lt {s : ColdStore} {check : ℚ} (h : check - s.lastFlush < flushSeconds)
    (done : ℚ) : s.maybeFlush check done = s :=
  if_neg fun hdue => absurd hdue.2 (not_le.mpr h)

/-- After `maybe_flush`, what is buffered is hardly older than the flush interval. -/
theorem Dated.lt_of_maybeFlush (h : s.Dated δ T) {check done : ℚ}
    (hx : (s.maybeFlush check done).buf.get? n = some x) :
    check - flushSeconds - δ < x.lastSeen := by
  unfold ColdStore.maybeFlush at hx
  split_ifs at hx with hdue
  · rw [buf_flush] at hx
    cases hx
  · have hsize : s.buf.size ≠ 0 := by
      intro hzero
      have hnil : s.buf.keys = [] := List.length_eq_zero_iff.mp (by simpa using hzero)
      have hmem : n ∈ s.buf.keys := OrderedDict.mem_keys_iff.mpr ⟨x, hx⟩
      rw [hnil] at hmem
      cases hmem
    have hage : check - s.lastFlush < flushSeconds := by
      by_contra hge
      exact hdue ⟨hsize, not_lt.mp hge⟩
    have hdate := h.buffered n x hx
    linarith

end ColdStore

/-- A record of a hearing at `τ` or later, its fields within the packed format. -/
structure Bearing.Since (τ : ℚ) (b : Bearing) : Prop where
  le : τ ≤ b.lastSeen
  hops_lt : b.hops < 2 ^ 16
  rssi_ge : -128 ≤ b.rssi.getD noRssi
  rssi_le : b.rssi.getD noRssi ≤ 127

/-- Every reading of the clock, in the order of the code, when one clock is behind both
of its functions. -/
def RouteOp.clock : RouteOp → List ℚ
  | .learn _ now mono => [now, mono]
  | .nextHop _ => []
  | .tick clk => [clk.wall, clk.settled, clk.check, clk.done]
  | .flush mono => [mono]
  | .expire now nowCold => [now, nowCold]
  | .warm _ => []

/-- A tick takes no longer than `δ` to commit the settles that are due. -/
def RouteOp.Prompt (δ : ℚ) (op : RouteOp) : Prop :=
  ∀ clk, op = .tick clk → clk.settled - clk.wall ≤ δ

namespace RouteTable

variable {t t' : RouteTable} {δ T T' τ : ℚ} {n : NodeId} {op : RouteOp} {o : RouteOut}

/-! ### The age of the buffer -/

def Dated (δ T : ℚ) (t : RouteTable) : Prop := ∀ s, t.cold = some s → s.Dated δ T

theorem Dated.mono (h : t.Dated δ T) (hT : T ≤ T') : t.Dated δ T' := fun s hs => (h s hs).mono hT

theorem Dated.note (h : t.Dated δ T) {x : Hearing} (hx : T - δ ≤ x.lastSeen) (hT : T ≤ T')
    {mono : ℚ} (hmono : mono ≤ T') (n : NodeId) : (t.note n x mono).Dated δ T' := by
  intro s' hs'
  obtain ⟨s, hs, rfl⟩ := Option.map_eq_some_iff.mp hs'
  exact (h s hs).buffer hx hT hmono n

theorem Dated.commit (h : t.Dated δ T) {c : Copy} {now mono : ℚ} (hnow : T - δ ≤ now)
    (hT : T ≤ T') (hmono : mono ≤ T') (hx : t.commit c now mono = some t') : t'.Dated δ T' := by
  obtain ⟨e, -, rfl⟩ := commit_eq_some_iff.mp hx
  have hplace : (t.place c.nodeId e).Dated δ T := h
  exact hplace.note hnow hT hmono c.nodeId

theorem Dated.learn (h : t.Dated δ T) {c : Copy} {now mono : ℚ} {v : LearnVerdict}
    (hnow : T - δ ≤ now) (hT : T ≤ T') (hmono : mono ≤ T')
    (hx : t.learn c now mono = some (v, t')) : t'.Dated δ T' := by
  cases learn_cases hx with
  | self _ => exact h.mono hT
  | committed v t' _ _ hcommit =>
    have hdrop : (t.dropPending c.nodeId).Dated δ T := h
    exact hdrop.commit hnow hT hmono hcommit
  | keptEqual old _ _ _ _ _ _ =>
    have hdrop : (t.dropPending c.nodeId).Dated δ T := h
    exact hdrop.note hnow hT hmono c.nodeId
  | settling old _ _ _ _ =>
    have hsharp : Dated δ T { t with pending := t.sharpened c now } := h
    exact hsharp.note hnow hT hmono c.nodeId
  | keptWorse old _ _ _ _ => exact h.note hnow hT hmono c.nodeId

/-- A flush forced by one settle is later than the date of the next. -/
theorem Dated.settle (h : t.Dated δ T) {now mono : ℚ} (hT : T ≤ mono) (hδ : mono - now ≤ δ)
    (hx : t.settle now mono = some t') : t'.Dated δ mono := by
  refine foldlM_invariant (Dated δ mono) (fun {u e u'} _ hu hone => ?_) (h.mono hT) hx
  have hdrop : (u.dropPending e.1).Dated δ mono := hu
  exact hdrop.commit (by linarith) le_rfl le_rfl hone

theorem Dated.mapCold (h : t.Dated δ T) {f : ColdStore → ColdStore}
    (hf : ∀ s, s.Dated δ T → (f s).Dated δ T') : Dated δ T' { t with cold := t.cold.map f } := by
  intro s' hs'
  obtain ⟨s, hs, rfl⟩ := Option.map_eq_some_iff.mp hs'
  exact hf s (h s hs)

theorem Dated.tick (h : t.Dated δ T) {clk : TickClock} (hop : clk.settled - clk.wall ≤ δ)
    (hclk : Ticks T T' (RouteOp.tick clk).clock) (hx : t.tick clk = some t') : t'.Dated δ T' := by
  obtain ⟨u, hu, rfl⟩ := Option.map_eq_some_iff.mp hx
  have hsettled := hclk.lower clk.settled (by simp [RouteOp.clock])
  refine (h.settle hsettled hop hu).mapCold fun s hs => ?_
  exact hs.maybeFlush (hclk.upper clk.settled (by simp [RouteOp.clock]))
    (hclk.upper clk.done (by simp [RouteOp.clock]))

theorem cold_nextHop {a : Option Mac} (h : t.nextHop n = some (a, t')) : t'.cold = t.cold := by
  cases nextHop_cases h with
  | hit e _ => rfl
  | cold r t' _ _ hput =>
    obtain ⟨e, -, rfl⟩ := putHot_eq_some_iff.mp hput
    rfl
  | miss _ _ => rfl

theorem Dated.step (h : t.Dated δ T) (hδ : 0 ≤ δ) (hop : op.Prompt δ) (hclk : Ticks T T' op.clock)
    (hx : t.step op = some (t', o)) : t'.Dated δ T' := by
  cases step_cases hx with
  | @learn c now mono _ _ hl =>
    have hnow := hclk.lower now (by simp [RouteOp.clock])
    exact h.learn (by linarith) hclk.le (hclk.upper mono (by simp [RouteOp.clock])) hl
  | nextHop hl =>
    intro s hs
    rw [cold_nextHop hl] at hs
    exact (h s hs).mono hclk.le
  | @tick clk _ hu => exact h.tick (hop clk rfl) hclk hu
  | flush mono =>
    have hmono := hclk.upper mono (by simp [RouteOp.clock])
    exact h.mapCold fun s _ => ColdStore.dated_flush s hmono
  | expire now nowCold =>
    exact h.mapCold fun s hs => ⟨hs.le.trans hclk.le, hs.buffered⟩
  | warm hl =>
    intro s hs
    rw [(warm_rest hl).1] at hs
    exact (h s hs).mono hclk.le

/-! ### What was heard is kept -/

/-- The store has such a record of `n`. -/
def Remembers (n : NodeId) (τ : ℚ) (t : RouteTable) : Prop := ∃ b, t.stored n = some b ∧ b.Since τ

theorem Remembers.cold_eq (h : t.Remembers n τ) : ∃ s, t.cold = some s := by
  obtain ⟨b, hb, -⟩ := h
  obtain ⟨s, hs, -⟩ := Option.bind_eq_some_iff.mp hb
  exact ⟨s, hs⟩

theorem since_hearing {c : Copy} {now : ℚ} {e : Packed} (hnow : τ ≤ now)
    (he : pack c.nextHop c.hops (c.rssi.getD noRssi) (pyInt now) = some e) :
    (c.hearing now).bearing.Since τ := by
  have hfits : (c.hearing now).bearing.Fits now := Bearing.fits_of_pack he le_rfl
  exact ⟨hnow, hfits.hops_lt, hfits.rssi_ge, hfits.rssi_le⟩

theorem since_heard {old : Packed} {c : Copy} {now : ℚ} (hnow : τ ≤ now) :
    (old.heard c now).bearing.Since τ :=
  ⟨hnow, old.hops_lt, old.rssi_ge, old.rssi_le⟩

/-- A call of `learn` for another node than the own one leaves its record. -/
theorem remembers_learn {c : Copy} {now mono : ℚ} {v : LearnVerdict} (hnow : τ ≤ now)
    (hcold : t.cold.isSome) (hx : t.learn c now mono = some (v, t'))
    (hself : t.ownId ≠ some c.nodeId) : t'.Remembers c.nodeId τ := by
  obtain ⟨s, hs⟩ := Option.isSome_iff_exists.mp hcold
  have hnote {u : RouteTable} (hu : u.cold = t.cold) {x : Hearing} (hx : x.bearing.Since τ) :
      (u.note c.nodeId x mono).Remembers c.nodeId τ :=
    ⟨x.bearing, by rw [stored_note, if_pos rfl, hu, hs, Option.map_some], hx⟩
  cases learn_cases hx with
  | self hown => exact absurd hown hself
  | committed v t' _ _ hcommit =>
    obtain ⟨e, he, rfl⟩ := commit_eq_some_iff.mp hcommit
    have hplace : ((t.dropPending c.nodeId).place c.nodeId e).cold = t.cold := rfl
    exact hnote hplace (since_hearing hnow he)
  | keptEqual old _ _ _ _ _ _ => exact hnote (u := t.dropPending c.nodeId) rfl (since_heard hnow)
  | settling old _ _ _ _ =>
    exact hnote (u := { t with pending := t.sharpened c now }) rfl (since_heard hnow)
  | keptWorse old _ _ _ _ => exact hnote rfl (since_heard hnow)

theorem Remembers.tick (h : t.Remembers n τ) {clk : TickClock} (hwall : τ ≤ clk.wall)
    (hx : t.tick clk = some t') : t'.Remembers n τ := by
  obtain ⟨s, hs⟩ := h.cold_eq
  cases tick_cases hx n with
  | idle _ _ _ hst =>
    obtain ⟨b, hb, hsince⟩ := h
    exact ⟨b, hst.trans hb, hsince⟩
  | committed q e _ _ he _ _ hst =>
    rw [hs, Option.map_some] at hst
    exact ⟨_, hst, since_hearing (c := q.copy n) hwall he⟩

theorem Remembers.expire (h : t.Remembers n τ) {now nowCold : ℚ} (hcut : nowCold - t.ttl ≤ τ) :
    (t.expire now nowCold).2.Remembers n τ := by
  obtain ⟨b, hb, hsince⟩ := h
  obtain ⟨s, hs, hb⟩ := Option.bind_eq_some_iff.mp hb
  refine ⟨b, Option.bind_eq_some_iff.mpr ⟨s.expire t.ttl nowCold, ?_, ?_⟩, hsince⟩
  · exact Option.map_eq_some_iff.mpr ⟨s, hs, rfl⟩
  · rw [ColdStore.bearing?_eq] at hb
    rw [ColdStore.bearing?_expire]
    cases hbuf : s.buf.get? n with
    | some x => rwa [hbuf] at hb
    | none =>
      simp only [hbuf, Option.map_eq_some_iff] at hb ⊢
      obtain ⟨r, hr, rfl⟩ := hb
      have hkept : ¬ r.lastSeen < nowCold - t.ttl := not_lt.mpr (hcut.trans hsince.le)
      exact ⟨r, Option.filter_eq_some_iff.mpr ⟨hr, decide_eq_true hkept⟩, rfl⟩

/-- No later operation forgets it, as long as no `expire` has a cutoff after `τ`. -/
theorem Remembers.step (h : t.Remembers n τ) (hclk : ∀ r ∈ op.clock, τ ≤ r)
    (hexpire : ∀ now nowCold, op = .expire now nowCold → nowCold - t.ttl ≤ τ)
    (hx : t.step op = some (t', o)) : t'.Remembers n τ := by
  have hsame (hst : t'.stored n = t.stored n) : t'.Remembers n τ := by
    obtain ⟨b, hb, hsince⟩ := h
    exact ⟨b, hst.trans hb, hsince⟩
  cases step_cases hx with
  | @learn c now mono _ _ hl =>
    by_cases hn : n = c.nodeId
    · subst hn
      by_cases hself : t.ownId = some c.nodeId
      · cases learn_cases hl with
        | self _ => exact h
        | committed _ _ hother _ _ => exact absurd hself hother
        | keptEqual _ hother _ _ _ _ _ => exact absurd hself hother
        | settling _ hother _ _ _ => exact absurd hself hother
        | keptWorse _ hother _ _ _ => exact absurd hself hother
      · obtain ⟨s, hs⟩ := h.cold_eq
        exact remembers_learn (hclk now (by simp [RouteOp.clock])) (by rw [hs]; rfl) hl hself
    · exact hsame (stored_learn_of_ne hl hn)
  | nextHop hl => exact hsame (stored_nextHop hl n)
  | @tick clk _ hu => exact h.tick (hclk clk.wall (by simp [RouteOp.clock])) hu
  | flush mono => exact hsame (stored_flush t mono n)
  | expire now nowCold => exact h.expire (hexpire now nowCold rfl)
  | warm hl => exact hsame (by rw [stored, stored, (warm_rest hl).1])

/-- A remembered node has a route, whatever the hot table holds. -/
theorem Remembers.nextHop_ne_none (h : t.Remembers n τ) {a : Option Mac}
    (hx : t.nextHop n = some (a, t')) : ∃ mac, a = some mac := by
  obtain ⟨b, hb, -⟩ := h
  cases nextHop_cases hx with
  | hit e _ => exact ⟨_, rfl⟩
  | cold r t' _ _ _ => exact ⟨_, rfl⟩
  | miss _ hnone =>
    rw [stored_eq_map, hnone] at hb
    cases hb

/-- The one failure is a time outside the four octets of the packed format. -/
theorem Remembers.nextHop_eq_none (h : t.Remembers n τ) (hx : t.nextHop n = none) :
    ∃ r, t.recorded n = some r ∧ (pyInt r.lastSeen < 0 ∨ 2 ^ 32 ≤ pyInt r.lastSeen) := by
  obtain ⟨b, hb, hsince⟩ := h
  obtain ⟨r, hr, hput⟩ := RouteTable.nextHop_eq_none hx
  refine ⟨r, hr, ?_⟩
  rw [stored_eq_map, hr, Option.map_some] at hb
  obtain rfl := Option.some.inj hb
  by_contra hfit
  rw [not_or, not_lt, not_le] at hfit
  rw [putHot, pack, dif_pos ⟨hsince.hops_lt, hsince.rssi_ge, hsince.rssi_le, hfit⟩] at hput
  cases hput

/-! ### A tick and an `expire` at one time -/

/-- `next_hop` answers from the record that `get` returns. -/
theorem get_of_nextHop {mac : Mac} (h : t.nextHop n = some (some mac, t')) :
    ∃ r, t.get n false = some r ∧ r.nextHop = mac := by
  generalize ha : some mac = a at h
  cases nextHop_cases h with
  | hit e he =>
    obtain rfl := Option.some.inj ha
    exact ⟨ofPacked n e, by simp [RouteTable.get, he], rfl⟩
  | cold r t' hnone hr _ =>
    obtain rfl := Option.some.inj ha
    rw [recorded] at hr
    exact ⟨r, by simp [RouteTable.get, hnone, hr], rfl⟩
  | miss _ _ => cases ha

/-- What is left was heard within the TTL, in the hot table, the buffer and the rows. -/
theorem Dated.expired (h : t.Dated δ T) (httl : flushSeconds + δ ≤ t.ttl) (hδ : 0 ≤ δ) {now : ℚ}
    (hT : T ≤ now) (htick : t.tick ⟨now, now, now, now⟩ = some t') {full : Bool} {r : Route}
    (hget : (t'.expire now now).2.get n full = some r) : now - t.ttl ≤ r.lastSeen := by
  obtain ⟨u, hu, rfl⟩ := Option.map_eq_some_iff.mp htick
  have hconf : u.ttl = t.ttl := (config_settle hu).ttl_eq
  have hdated : u.Dated δ now := h.settle hT (by linarith) hu
  rcases get_eq_some hget with hrec | ⟨e, he, rfl⟩
  · obtain ⟨s', hs', hrec⟩ := Option.bind_eq_some_iff.mp hrec
    obtain ⟨s₁, hs₁, rfl⟩ := Option.map_eq_some_iff.mp hs'
    obtain ⟨s, hs, rfl⟩ := Option.map_eq_some_iff.mp hs₁
    unfold ColdStore.get at hrec
    cases hb : ((s.maybeFlush now now).expire u.ttl now).buf.get? n with
    | some x =>
      simp only [hb, Option.some.injEq] at hrec
      obtain rfl := hrec
      have hage := (hdated s hs).lt_of_maybeFlush hb
      change now - t.ttl ≤ x.lastSeen
      linarith
    | none =>
      simp only [hb, Option.map_eq_some_iff] at hrec
      obtain ⟨row, hrow, rfl⟩ := hrec
      rw [ColdStore.expire, OrderedDict.get?_filter, Option.filter_eq_some_iff] at hrow
      have hkept := not_lt.mp (of_decide_eq_true hrow.2)
      change now - t.ttl ≤ row.lastSeen
      rwa [hconf] at hkept
  · rw [RouteTable.expire, OrderedDict.get?_filter, Option.filter_eq_some_iff] at he
    have hkept : ¬ (e.lastSeen : ℚ) < now - u.ttl := by simpa using he.2
    rw [hconf] at hkept
    exact not_lt.mp hkept

end RouteTable

end Beachedmesh
