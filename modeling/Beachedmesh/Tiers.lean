import Beachedmesh.Judgement

/-!
# The two tiers agree

A route is held three times: packed in memory, in the write buffer and in a row.
Along every run on a clock that never goes back, a hot entry agrees with what
cold storage reports, as long as no `expire` deletes a row whose hot entry it
spares: the two tiers compare with two readings of the clock.
-/
namespace Beachedmesh
open Machine

inductive RouteOp where
  | learn (c : Copy) (now mono : ℚ)
  | nextHop (nodeId : NodeId)
  | tick (clk : TickClock)
  | flush (mono : ℚ)
  | expire (now nowCold : ℚ)
  | warm (limit : Option ℕ)
  deriving DecidableEq

inductive RouteOut where
  | learned (v : LearnVerdict)
  | found (mac : Option Mac)
  | done
  | expired (dead : List NodeId)
  deriving DecidableEq

namespace RouteOp

/-- The readings of `time.time()`, in the order of the code. -/
def readings : RouteOp → List ℚ
  | .learn _ now _ => [now]
  | .nextHop _ => []
  | .tick clk => [clk.wall]
  | .flush _ => []
  | .expire now nowCold => [now, nowCold]
  | .warm _ => []

def isLearn : RouteOp → Bool
  | .learn _ _ _ => true
  | _ => false

def isWarm : RouteOp → Bool
  | .warm _ => true
  | _ => false

end RouteOp

/-- Every `warm` of the run comes before its first `learn`. -/
def WarmsFirst (ops : List RouteOp) : Prop :=
  ops.Pairwise fun op later => op.isLearn = true → later.isWarm = false

theorem WarmsFirst.not_isLearn {pre post : List RouteOp} {limit : Option ℕ}
    (h : WarmsFirst (pre ++ .warm limit :: post)) : ∀ op ∈ pre, op.isLearn = false := by
  intro op hop
  have hlater := (List.pairwise_append.mp h).2.2 op hop (.warm limit) (by simp)
  cases hl : op.isLearn with
  | false => rfl
  | true => cases hlater hl

/-- A record whose fields fit the packed format, its time possibly too late. -/
structure Bearing.Fits (b : Bearing) (T : ℚ) : Prop where
  hops_lt : b.hops < 2 ^ 16
  rssi_ge : -128 ≤ b.rssi.getD noRssi
  rssi_le : b.rssi.getD noRssi ≤ 127
  nonneg : 0 ≤ pyInt b.lastSeen
  past : b.lastSeen ≤ T

/-- A stored bearing against the hot entry that stands for it. -/
structure Bearing.Backs (b : Bearing) (e : Packed) : Prop where
  nextHop_eq : b.nextHop = e.nextHop
  hops_eq : b.hops = e.hops
  le : (e.lastSeen : ℤ) ≤ pyInt b.lastSeen

theorem Bearing.Fits.mono {b : Bearing} {T T' : ℚ} (h : b.Fits T) (hT : T ≤ T') : b.Fits T' :=
  { h with past := h.past.trans hT }

theorem Bearing.fits_of_pack {b : Bearing} {e : Packed} {T : ℚ}
    (he : pack b.nextHop b.hops (b.rssi.getD noRssi) (pyInt b.lastSeen) = some e)
    (hT : b.lastSeen ≤ T) : b.Fits T := by
  obtain ⟨-, hhops, hrssi, hseen⟩ := pack_eq_some_iff.mp he
  exact ⟨hhops ▸ e.hops_lt, hrssi ▸ e.rssi_ge, hrssi ▸ e.rssi_le, by omega, hT⟩

theorem Bearing.backs_of_pack {b : Bearing} {e : Packed}
    (he : pack b.nextHop b.hops (b.rssi.getD noRssi) (pyInt b.lastSeen) = some e) :
    b.Backs e := by
  obtain ⟨hnh, hhops, -, hseen⟩ := pack_eq_some_iff.mp he
  exact ⟨hnh.symm, hhops.symm, hseen.le⟩

/-- The one field of a fitting record that may fail to pack is its time. -/
theorem Bearing.Fits.pack_eq_none {b : Bearing} {T : ℚ} (h : b.Fits T)
    (hn : pack b.nextHop b.hops (b.rssi.getD noRssi) (pyInt b.lastSeen) = none) :
    2 ^ 32 ≤ pyInt b.lastSeen := by
  rw [pack] at hn
  split_ifs at hn with hfit
  by_contra hlt
  exact hfit ⟨h.hops_lt, h.rssi_ge, h.rssi_le, h.nonneg, not_le.mp hlt⟩

namespace RouteTable

def step (t : RouteTable) : RouteOp → Option (RouteTable × RouteOut)
  | .learn c now mono => (t.learn c now mono).map fun r => (r.2, .learned r.1)
  | .nextHop nodeId => (t.nextHop nodeId).map fun r => (r.2, .found r.1)
  | .tick clk => (t.tick clk).map fun t' => (t', .done)
  | .flush mono => some (t.flush mono, .done)
  | .expire now nowCold => some ((t.expire now nowCold).2, .expired (t.expire now nowCold).1)
  | .warm limit => (t.warm limit).map fun t' => (t', .done)

/-- What one operation answers, and the table it leaves. -/
inductive Stepped (t : RouteTable) : RouteOp → RouteOut → RouteTable → Prop
  | learn {c : Copy} {now mono : ℚ} {v : LearnVerdict} {t' : RouteTable} :
      t.learn c now mono = some (v, t') → Stepped t (.learn c now mono) (.learned v) t'
  | nextHop {n : NodeId} {a : Option Mac} {t' : RouteTable} :
      t.nextHop n = some (a, t') → Stepped t (.nextHop n) (.found a) t'
  | tick {clk : TickClock} {t' : RouteTable} :
      t.tick clk = some t' → Stepped t (.tick clk) .done t'
  | flush (mono : ℚ) : Stepped t (.flush mono) .done (t.flush mono)
  | expire (now nowCold : ℚ) :
      Stepped t (.expire now nowCold) (.expired (t.expire now nowCold).1) (t.expire now nowCold).2
  | warm {limit : Option ℕ} {t' : RouteTable} :
      t.warm limit = some t' → Stepped t (.warm limit) .done t'

theorem step_cases {t t' : RouteTable} {op : RouteOp} {o : RouteOut}
    (h : t.step op = some (t', o)) : Stepped t op o t' := by
  cases op with
  | learn c now mono =>
    obtain ⟨⟨v, u⟩, hl, he⟩ := Option.map_eq_some_iff.mp h
    obtain ⟨rfl, rfl⟩ := Prod.mk.inj he
    exact .learn hl
  | nextHop n =>
    obtain ⟨⟨a, u⟩, hl, he⟩ := Option.map_eq_some_iff.mp h
    obtain ⟨rfl, rfl⟩ := Prod.mk.inj he
    exact .nextHop hl
  | tick clk =>
    obtain ⟨u, hu, he⟩ := Option.map_eq_some_iff.mp h
    obtain ⟨rfl, rfl⟩ := Prod.mk.inj he
    exact .tick hu
  | flush mono =>
    obtain ⟨rfl, rfl⟩ := Prod.mk.inj (Option.some.inj h)
    exact .flush mono
  | expire now nowCold =>
    obtain ⟨rfl, rfl⟩ := Prod.mk.inj (Option.some.inj h)
    exact .expire now nowCold
  | warm limit =>
    obtain ⟨u, hu, he⟩ := Option.map_eq_some_iff.mp h
    obtain ⟨rfl, rfl⟩ := Prod.mk.inj he
    exact .warm hu

/-- What `ColdStore.get` answers under this table. -/
def recorded (t : RouteTable) (n : NodeId) : Option Route := t.cold.bind (fun s => s.get n)

theorem stored_eq_map (t : RouteTable) (n : NodeId) :
    t.stored n = (t.recorded n).map Route.bearing := by
  rw [stored, recorded]
  cases t.cold <;> rfl

theorem get_held (t : RouteTable) (n : NodeId) :
    t.get n false = ((t.hot.get? n).map (ofPacked n)).or (t.recorded n) := Option.orElse_eq_or

theorem get_full (t : RouteTable) (n : NodeId) :
    t.get n true = (t.recorded n).or ((t.hot.get? n).map (ofPacked n)) := Option.orElse_eq_or

/-- What `get` returns is the stored record, or a view of the hot entry. -/
theorem get_eq_some {t : RouteTable} {n : NodeId} {full : Bool} {r : Route}
    (h : t.get n full = some r) :
    t.recorded n = some r ∨ ∃ e, t.hot.get? n = some e ∧ r = ofPacked n e := by
  have hcases : t.recorded n = some r ∨ (t.hot.get? n).map (ofPacked n) = some r := by
    cases full with
    | false =>
      rw [get_held, Option.or_eq_some_iff] at h
      exact h.symm.imp And.right id
    | true =>
      rw [get_full, Option.or_eq_some_iff] at h
      exact h.imp id And.right
  refine hcases.imp id fun hheld => ?_
  obtain ⟨e, he, rfl⟩ := Option.map_eq_some_iff.mp hheld
  exact ⟨e, he, rfl⟩

/-! ### The claim about one state -/

/-- The tiers tell one story, and every look-up tells it. -/
structure Consistent (t : RouteTable) : Prop where
  agree : ∀ n e, t.hot.get? n = some e → ∃ r, t.recorded n = some r ∧
    r.nextHop = e.nextHop ∧ r.hops = e.hops ∧ (e.lastSeen : ℤ) ≤ pyInt r.lastSeen
  answers : ∀ n a t', t.nextHop n = some (a, t') → a = (t.recorded n).map Route.nextHop
  /-- The one failure is a time past the four octets of the packed format. -/
  raises : ∀ n, t.nextHop n = none → ∃ r, t.recorded n = some r ∧ 2 ^ 32 ≤ pyInt r.lastSeen
  undisturbed : ∀ m a t', t.nextHop m = some (a, t') →
    ∀ n b u b' u', t.nextHop n = some (b, u) → t'.nextHop n = some (b', u') → b' = b
  learned : ∀ c now mono v t', t.learn c now mono = some (v, t') → ∀ n, n ≠ c.nodeId →
    ∀ b u b' u', t.nextHop n = some (b, u) → t'.nextHop n = some (b', u') → b' = b

/-- A hot entry that the first cutoff of `expire` spares while the second one
deletes the row behind it, no buffered hearing standing in. -/
def Straddles (t : RouteTable) (now nowCold : ℚ) : Prop :=
  ∃ n e s r, t.hot.get? n = some e ∧ t.cold = some s ∧ s.buf.get? n = none ∧
    s.rows.get? n = some r ∧ now - t.ttl ≤ e.lastSeen ∧ r.lastSeen < nowCold - t.ttl

/-! ### The invariant -/

/-- At time `T`: the store is attached, hot entries are backed by it, and what it
holds fits and is not from the future. -/
structure Agreeing (T : ℚ) (t : RouteTable) : Prop where
  attached : t.cold.isSome
  held : ∀ n e, t.hot.get? n = some e → ∃ b, t.stored n = some b ∧ b.Backs e
  fits : ∀ n b, t.stored n = some b → b.Fits T

/-- Nothing learned yet: no settle waits and nothing is buffered. -/
def Untouched (t : RouteTable) : Prop :=
  t.pending = OrderedDict.empty ∧ ∀ s, t.cold = some s → s.buf = OrderedDict.empty

theorem Agreeing.mono {T T' : ℚ} {t : RouteTable} (h : t.Agreeing T) (hT : T ≤ T') :
    t.Agreeing T' :=
  { h with fits := fun n b hb => (h.fits n b hb).mono hT }

/-- Only the two tiers matter. -/
theorem Agreeing.congr {T : ℚ} {t t' : RouteTable} (h : t.Agreeing T) (hhot : t'.hot = t.hot)
    (hcold : t'.cold = t.cold) : t'.Agreeing T := by
  have hst (n : NodeId) : t'.stored n = t.stored n := by rw [stored, stored, hcold]
  exact ⟨hcold ▸ h.attached, fun n e he => hst n ▸ h.held n e (hhot ▸ he),
    fun n b hb => h.fits n b (hst n ▸ hb)⟩

/-- Placing an entry that the store backs. -/
theorem Agreeing.place {T : ℚ} {t : RouteTable} (h : t.Agreeing T) {n : NodeId} {e : Packed}
    {b : Bearing} (hb : t.stored n = some b) (he : b.Backs e) : (t.place n e).Agreeing T := by
  refine ⟨h.attached, fun m e' he' => ?_, h.fits⟩
  rcases get?_of_get?_place he' with ⟨rfl, rfl⟩ | ⟨-, hm⟩
  · exact ⟨b, hb, he⟩
  · exact h.held m e' hm

/-- Noting a hearing that backs whatever the hot table holds for the node. -/
theorem Agreeing.note {T : ℚ} {t : RouteTable} (h : ∃ s, t.cold = some s) {n : NodeId}
    {x : Hearing} {mono : ℚ} (hx : x.bearing.Fits T)
    (hself : ∀ e, t.hot.get? n = some e → x.bearing.Backs e)
    (hheld : ∀ m e, m ≠ n → t.hot.get? m = some e → ∃ b, t.stored m = some b ∧ b.Backs e)
    (hfits : ∀ m b, m ≠ n → t.stored m = some b → b.Fits T) : (t.note n x mono).Agreeing T := by
  obtain ⟨s, hs⟩ := h
  have hst (m : NodeId) :
      (t.note n x mono).stored m = if m = n then some x.bearing else t.stored m := by
    rw [stored_note, hs, Option.map_some]
  refine ⟨by simp [RouteTable.note, hs], fun m e he => ?_, fun m b hb => ?_⟩
  · by_cases hm : m = n
    · subst hm
      exact ⟨x.bearing, by rw [hst, if_pos rfl], hself e he⟩
    · rw [hst, if_neg hm]
      exact hheld m e hm he
  · rw [hst] at hb
    split_ifs at hb with hm
    · exact Option.some.inj hb ▸ hx
    · exact hfits m b hm hb

theorem Agreeing.cold_eq {T : ℚ} {t : RouteTable} (h : t.Agreeing T) : ∃ s, t.cold = some s :=
  Option.isSome_iff_exists.mp h.attached

/-- A commit writes both tiers alike. -/
theorem Agreeing.commit {T : ℚ} {t t' : RouteTable} (h : t.Agreeing T) {c : Copy} {now mono : ℚ}
    (hnow : now ≤ T) (hx : t.commit c now mono = some t') : t'.Agreeing T := by
  obtain ⟨e, he, rfl⟩ := commit_eq_some_iff.mp hx
  have hfits : (c.hearing now).bearing.Fits T := Bearing.fits_of_pack he hnow
  have hbacks : (c.hearing now).bearing.Backs e := Bearing.backs_of_pack he
  refine Agreeing.note (t := t.place c.nodeId e) h.cold_eq hfits (fun e' he' => ?_)
    (fun m e' hm he' => ?_) (fun m b _ hb => h.fits m b hb)
  · rcases get?_of_get?_place he' with ⟨-, rfl⟩ | ⟨hne, -⟩
    · exact hbacks
    · exact absurd rfl hne
  · rcases get?_of_get?_place he' with ⟨hmn, -⟩ | ⟨-, hm'⟩
    · exact absurd hmn hm
    · exact h.held m e' hm'

/-- A hearing that leaves the held route standing is dated now, after the entry. -/
theorem Agreeing.heard {T now : ℚ} {t : RouteTable} (h : t.Agreeing T) (hT : T ≤ now) {c : Copy}
    {old : Packed} (hold : t.hot.get? c.nodeId = some old) (mono : ℚ) :
    (t.note c.nodeId (old.heard c now) mono).Agreeing now := by
  obtain ⟨b, hb, hbacks⟩ := h.held c.nodeId old hold
  have hle : (old.lastSeen : ℤ) ≤ pyInt now :=
    hbacks.le.trans (pyInt_mono ((h.fits _ b hb).past.trans hT))
  have hfits : (old.heard c now).bearing.Fits now :=
    ⟨old.hops_lt, old.rssi_ge, old.rssi_le, by
      change 0 ≤ pyInt now
      omega, le_rfl⟩
  refine Agreeing.note h.cold_eq hfits (fun e he => ?_) (fun m e _ he => h.held m e he)
    (fun m b _ hb => (h.fits m b hb).mono hT)
  obtain rfl := Option.some.inj (he.symm.trans hold)
  exact ⟨rfl, rfl, hle⟩

/-! ### One operation -/

theorem Agreeing.learn {T now mono : ℚ} {t t' : RouteTable} (h : t.Agreeing T) (hT : T ≤ now)
    {c : Copy} {v : LearnVerdict} (hx : t.learn c now mono = some (v, t')) : t'.Agreeing now := by
  cases learn_cases hx with
  | self _ => exact h.mono hT
  | committed v t' _ _ hcommit =>
    have hdrop : (t.dropPending c.nodeId).Agreeing now := (h.mono hT).congr rfl rfl
    exact hdrop.commit le_rfl hcommit
  | keptEqual old _ hold _ _ _ _ =>
    have hdrop : (t.dropPending c.nodeId).Agreeing T := h.congr rfl rfl
    exact hdrop.heard hT hold mono
  | settling old _ hold _ _ =>
    have hsharp : Agreeing T { t with pending := t.sharpened c now } := h.congr rfl rfl
    exact hsharp.heard hT hold mono
  | keptWorse old _ hold _ _ => exact h.heard hT hold mono

/-- A record read from the store comes back as an entry that it backs. -/
theorem Agreeing.promote {T : ℚ} {t t' : RouteTable} (h : t.Agreeing T) {n : NodeId} {b : Bearing}
    (hb : t.stored n = some b) (hx : t.putHot n b.nextHop b.hops b.rssi b.lastSeen = some t') :
    t'.Agreeing T := by
  obtain ⟨e, he, rfl⟩ := putHot_eq_some_iff.mp hx
  exact h.place hb (Bearing.backs_of_pack he)

/-- What a look-up answers, and the table it leaves. -/
inductive Found (t : RouteTable) (n : NodeId) : Option Mac → RouteTable → Prop
  | hit (e : Packed) : t.hot.get? n = some e →
      Found t n (some e.nextHop) { t with hot := t.hot.reinsert n e }
  | cold (r : Route) (t' : RouteTable) : t.hot.get? n = none → t.recorded n = some r →
      t.putHot n r.nextHop r.hops r.rssi r.lastSeen = some t' → Found t n (some r.nextHop) t'
  | miss : t.hot.get? n = none → t.recorded n = none → Found t n none t

theorem nextHop_cases {t t' : RouteTable} {n : NodeId} {a : Option Mac}
    (h : t.nextHop n = some (a, t')) : Found t n a t' := by
  rw [nextHop] at h
  cases hhot : t.hot.get? n with
  | some e =>
    simp only [hhot] at h
    obtain ⟨rfl, rfl⟩ := Prod.mk.inj (Option.some.inj h)
    exact .hit e hhot
  | none =>
    simp only [hhot] at h
    cases hr : t.recorded n with
    | none =>
      rw [recorded] at hr
      simp only [hr] at h
      obtain ⟨rfl, rfl⟩ := Prod.mk.inj (Option.some.inj h)
      exact .miss hhot hr
    | some r =>
      have hr' := hr
      rw [recorded] at hr'
      simp only [hr'] at h
      obtain ⟨u, hu, he⟩ := Option.map_eq_some_iff.mp h
      obtain ⟨rfl, rfl⟩ := Prod.mk.inj he
      exact .cold r u hhot hr hu

theorem nextHop_eq_none {t : RouteTable} {n : NodeId} (h : t.nextHop n = none) :
    ∃ r, t.recorded n = some r ∧ t.putHot n r.nextHop r.hops r.rssi r.lastSeen = none := by
  rw [nextHop] at h
  cases hhot : t.hot.get? n with
  | some e => simp [hhot] at h
  | none =>
    simp only [hhot] at h
    cases hr : t.cold.bind (fun s => s.get n) with
    | none => simp [hr] at h
    | some r =>
      simp only [hr, Option.map_eq_none_iff] at h
      exact ⟨r, hr, h⟩

theorem Agreeing.nextHop {T : ℚ} {t t' : RouteTable} (h : t.Agreeing T) {n : NodeId}
    {a : Option Mac} (hx : t.nextHop n = some (a, t')) : t'.Agreeing T := by
  cases nextHop_cases hx with
  | hit e he =>
    refine ⟨h.attached, fun m e' he' => ?_, h.fits⟩
    rw [OrderedDict.get?_reinsert] at he'
    split_ifs at he' with hm
    · exact h.held m e' (by rw [hm, he, he'])
    · exact h.held m e' he'
  | cold r t' _ hr hput =>
    exact h.promote (b := r.bearing) (by rw [stored_eq_map, hr, Option.map_some]) hput
  | miss _ _ => exact h

theorem stored_flush (t : RouteTable) (mono : ℚ) (n : NodeId) :
    (t.flush mono).stored n = t.stored n := by
  rw [stored, stored, flush]
  cases t.cold <;> simp

/-- Writing the buffer out changes no bearing. -/
theorem Agreeing.mapCold {T : ℚ} {t : RouteTable} (h : t.Agreeing T) {f : ColdStore → ColdStore}
    (hf : ∀ s n, (f s).bearing? n = s.bearing? n) :
    Agreeing T { t with cold := t.cold.map f } := by
  have hst (n : NodeId) : stored { t with cold := t.cold.map f } n = t.stored n := by
    rw [stored, stored]
    cases t.cold with
    | none => rfl
    | some s => exact hf s n
  refine ⟨by simpa using h.attached, fun n e he => ?_, fun n b hb => ?_⟩
  · rw [hst]; exact h.held n e he
  · rw [hst] at hb; exact h.fits n b hb

theorem Agreeing.settle {T now mono : ℚ} {t t' : RouteTable} (h : t.Agreeing T) (hnow : now ≤ T)
    (hx : t.settle now mono = some t') : t'.Agreeing T := by
  refine foldlM_invariant (Agreeing T) (fun {u e u'} _ hu hone => ?_) h hx
  have hdrop : (u.dropPending e.1).Agreeing T := hu.congr rfl rfl
  exact hdrop.commit hnow hone

theorem Agreeing.tick {T : ℚ} {t t' : RouteTable} (h : t.Agreeing T) {clk : TickClock}
    (hT : T ≤ clk.wall) (hx : t.tick clk = some t') : t'.Agreeing clk.wall := by
  obtain ⟨u, hu, rfl⟩ := Option.map_eq_some_iff.mp hx
  exact ((h.mono hT).settle le_rfl hu).mapCold fun s n =>
    ColdStore.bearing?_maybeFlush s clk.check clk.done n

theorem Agreeing.expire {T : ℚ} {t : RouteTable} (h : t.Agreeing T) {now nowCold : ℚ}
    (hns : ¬ t.Straddles now nowCold) : ((t.expire now nowCold).2).Agreeing T := by
  obtain ⟨s, hs⟩ := h.cold_eq
  have hst (n : NodeId) :
      (t.expire now nowCold).2.stored n = (s.expire t.ttl nowCold).bearing? n := by
    simp [stored, RouteTable.expire, hs]
  have hold (n : NodeId) : t.stored n = s.bearing? n := by simp [stored, hs]
  refine ⟨by simp [RouteTable.expire, hs], fun n e he => ?_, fun n b hb => ?_⟩
  · rw [RouteTable.expire, OrderedDict.get?_filter, Option.filter_eq_some_iff] at he
    obtain ⟨he, hspared⟩ := he
    obtain ⟨b, hb, hbacks⟩ := h.held n e he
    refine ⟨b, ?_, hbacks⟩
    rw [hst, ColdStore.bearing?_expire]
    rw [hold, ColdStore.bearing?_eq] at hb
    cases hbuf : s.buf.get? n with
    | some x => simpa [hbuf] using hb
    | none =>
      obtain ⟨r, hr, rfl⟩ : ∃ r, s.rows.get? n = some r ∧ r.bearing = b := by simpa [hbuf] using hb
      have hkeep : ¬ r.lastSeen < nowCold - t.ttl := fun hlt =>
        hns ⟨n, e, s, r, he, hs, hbuf, hr, by simpa using hspared, hlt⟩
      simpa [hr, Option.filter] using hkeep
  · rw [hst, ColdStore.bearing?_expire] at hb
    refine h.fits n b ?_
    rw [hold, ColdStore.bearing?_eq]
    cases hbuf : s.buf.get? n with
    | some x => simpa [hbuf] using hb
    | none =>
      simp only [hbuf, Option.map_eq_some_iff, Option.filter_eq_some_iff] at hb ⊢
      obtain ⟨r, ⟨hr, -⟩, rfl⟩ := hb
      exact ⟨r, hr, rfl⟩

/-- With an empty buffer the rows are what the store reports. -/
theorem Agreeing.warm {T : ℚ} {t t' : RouteTable} (h : t.Agreeing T) (hu : t.Untouched)
    {limit : Option ℕ} (hx : t.warm limit = some t') : t'.Agreeing T ∧ t'.Untouched := by
  obtain ⟨s, hs⟩ := h.cold_eq
  have hbuf := hu.2 s hs
  simp only [RouteTable.warm, hs] at hx
  have hinv := foldlM_invariant
    (fun u => u.Agreeing T ∧ u.cold = t.cold ∧ u.pending = t.pending) ?_ ⟨h, rfl, rfl⟩ hx
  · obtain ⟨hagree, hcold, hpend⟩ := hinv
    exact ⟨hagree, hpend.trans hu.1, fun u hu' => hu.2 u (hcold ▸ hu')⟩
  rintro u ⟨n, r⟩ u' hmem ⟨hagree, hcold, hpend⟩ hput
  have hrow : s.rows.get? n = some r :=
    OrderedDict.get?_eq_some_iff.mpr (List.mem_mergeSort.mp (List.mem_of_mem_take hmem))
  have hst : u.stored n = some r.bearing := by
    rw [stored, hcold, hs, Option.bind_some, ColdStore.bearing?_eq, hbuf, OrderedDict.get?_empty,
      hrow, Option.map_some]
  obtain ⟨e, -, he⟩ := putHot_eq_some_iff.mp hput
  exact ⟨hagree.promote (b := r.bearing) hst hput, by rw [he]; exact hcold, by rw [he]; exact hpend⟩

theorem Untouched.nextHop {t t' : RouteTable} (h : t.Untouched) {n : NodeId} {a : Option Mac}
    (hx : t.nextHop n = some (a, t')) : t'.Untouched := by
  cases nextHop_cases hx with
  | hit e _ => exact h
  | cold r t' _ _ hput =>
    obtain ⟨e, -, rfl⟩ := putHot_eq_some_iff.mp hput
    exact h
  | miss _ _ => exact h

theorem Untouched.mapCold {t : RouteTable} (h : t.Untouched) {f : ColdStore → ColdStore}
    (hf : ∀ s, s.buf = OrderedDict.empty → (f s).buf = OrderedDict.empty) :
    Untouched { t with cold := t.cold.map f } := by
  refine ⟨h.1, fun s hs => ?_⟩
  obtain ⟨u, hu, rfl⟩ := Option.map_eq_some_iff.mp hs
  exact hf u (h.2 u hu)

theorem Untouched.tick {t t' : RouteTable} (h : t.Untouched) {clk : TickClock}
    (hx : t.tick clk = some t') : t'.Untouched := by
  obtain ⟨u, hu, rfl⟩ := Option.map_eq_some_iff.mp hx
  have htu : t = u := by
    rw [settle, h.1] at hu
    exact Option.some.inj hu
  subst htu
  refine h.mapCold fun s hs => ?_
  rw [ColdStore.maybeFlush]
  split_ifs
  · exact ColdStore.buf_flush s clk.done
  · exact hs

/-- What a run keeps: the tiers agree, and until something is learned nothing is
pending or buffered. -/
theorem Agreeing.step {T T' : ℚ} {t t' : RouteTable} {op : RouteOp} {o : RouteOut}
    (h : t.Agreeing T) (hT : Ticks T T' op.readings) (hx : t.step op = some (t', o))
    (hwarm : ∀ limit, op = .warm limit → t.Untouched)
    (hexp : ∀ now nowCold, op = .expire now nowCold → ¬ t.Straddles now nowCold) :
    t'.Agreeing T' := by
  have hmem {r : ℚ} (hr : r ∈ op.readings) : T ≤ r ∧ r ≤ T' := ⟨hT.lower r hr, hT.upper r hr⟩
  cases step_cases hx with
  | @learn c now _ _ _ hl =>
    obtain ⟨hlo, hhi⟩ := hmem (r := now) (by simp [RouteOp.readings])
    exact (h.learn hlo hl).mono hhi
  | nextHop hl => exact (h.nextHop hl).mono hT.le
  | @tick clk _ hl =>
    obtain ⟨hlo, hhi⟩ := hmem (r := clk.wall) (by simp [RouteOp.readings])
    exact (h.tick hlo hl).mono hhi
  | flush mono => exact (h.mapCold fun s n => ColdStore.bearing?_flush s mono n).mono hT.le
  | expire now nowCold => exact (h.expire (hexp now nowCold rfl)).mono hT.le
  | @warm limit _ hl => exact (h.warm (hwarm limit rfl) hl).1.mono hT.le

theorem Untouched.step {T : ℚ} {t t' : RouteTable} {op : RouteOp} {o : RouteOut}
    (ha : t.Agreeing T) (h : t.Untouched) (hop : op.isLearn = false)
    (hx : t.step op = some (t', o)) : t'.Untouched := by
  cases step_cases hx with
  | learn _ => cases hop
  | nextHop hl => exact h.nextHop hl
  | tick hl => exact h.tick hl
  | flush mono => exact h.mapCold fun s _ => ColdStore.buf_flush s mono
  | expire now nowCold =>
    have hcold := h.mapCold (f := fun s => s.expire t.ttl nowCold) fun s hs => hs
    exact hcold
  | warm hl => exact (ha.warm h hl).2

/-! ### The invariant gives the claim about one state -/

/-- A look-up answers what is stored, if the store backs what is hot. -/
theorem answer_eq {t t' : RouteTable} {n : NodeId} {a : Option Mac}
    (h : ∀ e, t.hot.get? n = some e → ∃ b, t.stored n = some b ∧ b.Backs e)
    (hx : t.nextHop n = some (a, t')) : a = (t.stored n).map Bearing.nextHop := by
  cases nextHop_cases hx with
  | hit e he =>
    obtain ⟨b, hb, hbacks⟩ := h e he
    rw [hb, Option.map_some, hbacks.nextHop_eq]
  | cold r t' _ hr _ => rw [stored_eq_map, hr]; rfl
  | miss _ hr => rw [stored_eq_map, hr]; rfl

/-- A look-up stores nothing. -/
theorem stored_nextHop {t t' : RouteTable} {n : NodeId} {a : Option Mac}
    (hx : t.nextHop n = some (a, t')) (m : NodeId) : t'.stored m = t.stored m := by
  cases nextHop_cases hx with
  | hit e _ => rfl
  | cold r t' _ _ hput =>
    obtain ⟨e, -, rfl⟩ := putHot_eq_some_iff.mp hput
    rfl
  | miss _ _ => rfl

/-- An announce is stored under its own node only. -/
theorem stored_learn_of_ne {t t' : RouteTable} {c : Copy} {now mono : ℚ} {v : LearnVerdict}
    (hx : t.learn c now mono = some (v, t')) {n : NodeId} (hn : n ≠ c.nodeId) :
    t'.stored n = t.stored n := by
  cases learn_cases hx with
  | self _ => rfl
  | committed v t' _ _ hcommit =>
    obtain ⟨e, -, rfl⟩ := commit_eq_some_iff.mp hcommit
    rw [stored_note, if_neg hn]
    rfl
  | keptEqual old _ _ _ _ _ _ => rw [stored_note, if_neg hn]; rfl
  | settling old _ _ _ _ => rw [stored_note, if_neg hn]; rfl
  | keptWorse old _ _ _ _ => rw [stored_note, if_neg hn]

/-- Nor does it bring another node into the hot table. -/
theorem get?_hot_of_learn {t t' : RouteTable} {c : Copy} {now mono : ℚ} {v : LearnVerdict}
    (hx : t.learn c now mono = some (v, t')) {n : NodeId} (hn : n ≠ c.nodeId) {e : Packed}
    (he : t'.hot.get? n = some e) : t.hot.get? n = some e := by
  cases learn_cases hx with
  | self _ => exact he
  | committed v t' _ _ hcommit =>
    obtain ⟨e', -, rfl⟩ := commit_eq_some_iff.mp hcommit
    rcases get?_of_get?_place he with ⟨hnc, -⟩ | ⟨-, he⟩
    · exact absurd hnc hn
    · exact he
  | keptEqual old _ _ _ _ _ _ => exact he
  | settling old _ _ _ _ => exact he
  | keptWorse old _ _ _ _ => exact he

theorem Agreeing.consistent {T : ℚ} {t : RouteTable} (h : t.Agreeing T) : t.Consistent where
  agree := by
    intro n e he
    obtain ⟨b, hb, hbacks⟩ := h.held n e he
    rw [stored_eq_map, Option.map_eq_some_iff] at hb
    obtain ⟨r, hr, rfl⟩ := hb
    exact ⟨r, hr, hbacks.nextHop_eq, hbacks.hops_eq, hbacks.le⟩
  answers := by
    intro n a t' hx
    rw [answer_eq (h.held n) hx, stored_eq_map, Option.map_map]
    rfl
  raises := by
    intro n hx
    obtain ⟨r, hr, hput⟩ := nextHop_eq_none hx
    have hfits : r.bearing.Fits T := h.fits n r.bearing (by rw [stored_eq_map, hr, Option.map_some])
    exact ⟨r, hr, hfits.pack_eq_none (Option.map_eq_none_iff.mp hput)⟩
  undisturbed := by
    intro m a t' hm n b u b' u' hb hb'
    rw [answer_eq ((h.nextHop hm).held n) hb', answer_eq (h.held n) hb, stored_nextHop hm]
  learned := by
    intro c now mono v t' hl n hn b u b' u' hb hb'
    have hheld (e : Packed) (he : t'.hot.get? n = some e) :
        ∃ b, t'.stored n = some b ∧ b.Backs e := by
      rw [stored_learn_of_ne hl hn]
      exact h.held n e (get?_hot_of_learn hl hn he)
    rw [answer_eq hheld hb', answer_eq (h.held n) hb, stored_learn_of_ne hl hn]

/-- A straddling `expire` leaves a hot entry with nothing behind it. -/
theorem Straddles.not_consistent {t : RouteTable} {now nowCold : ℚ}
    (h : t.Straddles now nowCold) : ¬ ((t.expire now nowCold).2).Consistent := by
  obtain ⟨n, e, s, r, he, hs, hbuf, hr, hspared, hold⟩ := h
  intro hc
  have he' : (t.expire now nowCold).2.hot.get? n = some e := by
    rw [expire, OrderedDict.get?_filter, he]
    simpa [Option.filter] using hspared
  obtain ⟨r', hr', -⟩ := hc.agree n e he'
  have hgone : (t.expire now nowCold).2.stored n = none := by
    rw [stored, expire, hs, Option.map_some, Option.bind_some, ColdStore.bearing?_expire, hbuf, hr]
    simp [Option.filter, hold]
  rw [stored_eq_map, hr'] at hgone
  cases hgone

/-- A fresh table over a database whose records fit and are not from the future. -/
theorem agreeing_new {own : Option NodeId} {ttl : ℚ} {maxHot : ℕ} {rows : OrderedDict NodeId Row}
    {mono₀ T₀ : ℚ} (hrows : ∀ n r, rows.get? n = some r → r.bearing.Fits T₀) :
    (new own ttl (some (ColdStore.new rows mono₀)) maxHot).Agreeing T₀ := by
  refine ⟨rfl, fun n e he => ?_, fun n b hb => ?_⟩
  · cases he
  · rw [stored, new, Option.bind_some, ColdStore.bearing?_eq] at hb
    obtain ⟨r, hr, rfl⟩ := Option.map_eq_some_iff.mp hb
    exact hrows n r hr

end RouteTable

/-- For every run over a clock that never goes back, with `warm` only before the
first `learn`: the tiers are consistent in every state of the run exactly when no
`expire` of the run straddles. -/
theorem consistent_iff_not_straddles {own : Option NodeId} {ttl : ℚ} {maxHot : ℕ}
    {rows : OrderedDict NodeId Row} {mono₀ T₀ : ℚ}
    (hrows : ∀ n r, rows.get? n = some r → r.bearing.Fits T₀) {ops : List RouteOp}
    (hwarm : WarmsFirst ops) (hclock : Clocked RouteOp.readings T₀ ops) :
    (∀ pre post t os, ops = pre ++ post →
      exec RouteTable.step (RouteTable.new own ttl (some (ColdStore.new rows mono₀)) maxHot) pre =
        some (t, os) → t.Consistent) ↔
    (∀ pre now nowCold post t os, ops = pre ++ .expire now nowCold :: post →
      exec RouteTable.step (RouteTable.new own ttl (some (ColdStore.new rows mono₀)) maxHot) pre =
        some (t, os) → ¬ t.Straddles now nowCold) := by
  set t₀ := RouteTable.new own ttl (some (ColdStore.new rows mono₀)) maxHot with ht₀
  constructor
  · intro hall pre now nowCold post t os hops hx hstr
    have hstep : t.step (.expire now nowCold) =
        some ((t.expire now nowCold).2, .expired (t.expire now nowCold).1) := rfl
    have hx' : exec RouteTable.step t₀ (pre ++ [.expire now nowCold]) =
        some ((t.expire now nowCold).2, os ++ [.expired (t.expire now nowCold).1]) :=
      exec_append_iff.mpr ⟨t, os, _, hx, exec_cons_iff.mpr ⟨_, _, [], hstep, rfl, rfl⟩, rfl⟩
    exact hstr.not_consistent (hall _ post _ _ (by simpa using hops) hx')
  · intro hns pre post t os hops hx
    -- the invariant says where the clock stands, so that the rest of the run is known
    have hinv := exec_prefix (fun pre t =>
      ∃ T, t.Agreeing T ∧ (∀ post, ops = pre ++ post → Clocked RouteOp.readings T post) ∧
        ((∀ op ∈ pre, op.isLearn = false) → t.Untouched)) ?_ ?_ hops hx
    · obtain ⟨T, hT, -⟩ := hinv
      exact hT.consistent
    · refine ⟨T₀, RouteTable.agreeing_new hrows, fun post hpost => ?_, fun _ => ⟨rfl, ?_⟩⟩
      · obtain rfl : ops = post := hpost
        exact hclock
      · rintro s hs
        obtain rfl : ColdStore.new rows mono₀ = s := Option.some.inj hs
        rfl
    · rintro pre op post t os t' o hops hx ⟨T, hT, hclk, hunt⟩ hstep
      obtain ⟨T', htick, hclk'⟩ := (hclk _ hops).cons
      refine ⟨T', ?_, fun post' hpost' => ?_, fun hno => ?_⟩
      · refine hT.step htick hstep (fun limit hop => ?_) (fun now nowCold hop => ?_)
        · subst hop
          exact hunt (WarmsFirst.not_isLearn (hops ▸ hwarm))
        · exact hns pre now nowCold post t os (hop ▸ hops) hx
      · rw [hops, List.append_assoc] at hpost'
        obtain rfl : post = post' := (List.cons.inj (List.append_cancel_left hpost')).2
        exact hclk'
      · exact (hunt fun op hop => hno op (by simp [hop])).step hT (hno op (by simp)) hstep

/-- Two copies of one announce, the first over a longer path, and a promotion past
the bound of one hot entry. -/
theorem consistent_promotion : ∃ t os, exec RouteTable.step
    (RouteTable.new none defaultTtl (some (ColdStore.new OrderedDict.empty 0)) 1)
    [.warm none, .learn ⟨nodeIdOf 1, macOf 1, 2, some (-60), none, none, ""⟩ 100 0,
      .learn ⟨nodeIdOf 1, macOf 2, 1, some (-50), none, none, ""⟩ (201 / 2) 0,
      .learn ⟨nodeIdOf 2, macOf 2, 0, none, none, none, ""⟩ 101 0,
      .nextHop (nodeIdOf 1), .tick ⟨102, 0, 6, 6⟩] = some (t, os) ∧ t.Consistent := by
  set ops : List RouteOp := [.warm none,
    .learn ⟨nodeIdOf 1, macOf 1, 2, some (-60), none, none, ""⟩ 100 0,
    .learn ⟨nodeIdOf 1, macOf 2, 1, some (-50), none, none, ""⟩ (201 / 2) 0,
    .learn ⟨nodeIdOf 2, macOf 2, 0, none, none, none, ""⟩ 101 0,
    .nextHop (nodeIdOf 1), .tick ⟨102, 0, 6, 6⟩] with hops
  have hsome : (exec RouteTable.step
      (RouteTable.new none defaultTtl (some (ColdStore.new OrderedDict.empty 0)) 1)
      ops).isSome = true := by
    decide +kernel
  obtain ⟨⟨t, os⟩, hx⟩ := Option.isSome_iff_exists.mp hsome
  have hrows : ∀ n r, (OrderedDict.empty : OrderedDict NodeId Row).get? n = some r →
      r.bearing.Fits 0 := by
    intro n r hr
    cases hr
  have hwarm : WarmsFirst ops := by
    unfold WarmsFirst
    decide
  have hclock : Clocked RouteOp.readings 0 ops := by
    unfold Clocked
    decide +kernel
  refine ⟨t, os, hx, (consistent_iff_not_straddles hrows hwarm hclock).mpr ?_ ops [] t os
    (by simp) hx⟩
  · intro pre now nowCold post t os hpre
    have hmem : RouteOp.expire now nowCold ∈ pre ++ .expire now nowCold :: post := by simp
    rw [← hpre] at hmem
    simp [hops] at hmem

/-- A hot entry of exactly the cutoff's second is spared; its row, a tenth of a
second too old for the later reading, is not. -/
theorem expire_can_straddle : ∃ ops t os, WarmsFirst ops ∧ Clocked RouteOp.readings 0 ops ∧
    exec RouteTable.step
      (RouteTable.new none defaultTtl (some (ColdStore.new OrderedDict.empty 0)) 1) ops =
        some (t, os) ∧ ¬ t.Consistent := by
  let ops : List RouteOp := [.learn ⟨nodeIdOf 1, macOf 1, 1, some (-60), none, none, ""⟩ 100 0,
    .flush 10, .expire (defaultTtl + 100) (defaultTtl + 1001 / 10)]
  have hrun : (exec RouteTable.step
      (RouteTable.new none defaultTtl (some (ColdStore.new OrderedDict.empty 0)) 1) ops).map
      (fun r => (r.1.hot.keys, r.1.recorded (nodeIdOf 1))) = some ([nodeIdOf 1], none) := by
    decide +kernel
  obtain ⟨⟨t, os⟩, hx, hto⟩ := Option.map_eq_some_iff.mp hrun
  obtain ⟨hkeys, hrec⟩ := Prod.mk.inj hto
  refine ⟨ops, t, os, ?_, ?_, hx, fun hc => ?_⟩
  · unfold WarmsFirst
    decide
  · unfold Clocked
    decide +kernel
  · have hmem : nodeIdOf 1 ∈ t.hot.keys := by rw [hkeys]; simp
    obtain ⟨e, he⟩ := OrderedDict.mem_keys_iff.mp hmem
    obtain ⟨r, hr, -⟩ := hc.agree (nodeIdOf 1) e he
    rw [hrec] at hr
    cases hr

end Beachedmesh
