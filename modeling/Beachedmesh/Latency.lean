import Beachedmesh.FloodCost
import Beachedmesh.Neighbourhood
import Beachedmesh.Waiting

/-!
# How long a flood takes

The mesh with a clock. A transmission reaches whom it reaches within a bounded time, and
no relay goes out later than a bounded time after it is due. Then each relay goes out within
bounds after the transmission it relays, so that a flood is over a fixed time after its
origin; and where the lifetime of the caches covers that time, no node meets a copy of what
its cache has let go of.
-/
namespace Beachedmesh
open Machine

namespace Mesh

variable {ι : Type} {mesh : Mesh ι}

/-- What a waiting relay goes back to is in the air. -/
theorem Causal.took_lt (h : mesh.Causal) {a : ι} {k : Key} {p : Pending}
    {j : ℕ} (hp : (mesh.nodes a).flooder.pending.get? k = some p) (hj : mesh.took a k = some j) :
    j < mesh.air.length := by
  obtain ⟨-, j', hj', hs⟩ := h.pending a k p hp
  obtain rfl := Option.some.inj (hj.symm.trans hj')
  obtain ⟨q, hq, -⟩ := hs.relayed
  exact hq.lt

theorem Causal.cause_lt (h : mesh.Causal) {k j : ℕ} {e : Emission ι}
    (he : mesh.air[k]? = some e) (hj : e.cause = some j) : j < k := by
  obtain ⟨q, -, hcaused⟩ := h.air k e he
  cases hcaused with
  | original hnone _ => cases hj.symm.trans hnone
  | relay j' hj' hlt _ =>
    obtain rfl := Option.some.inj (hj.symm.trans hj')
    exact hlt

/-- A relay that a node sends was due when it looked. -/
theorem Causal.cause_emissions [DecidableEq ι] (h : mesh.Causal) {a : ι} {op : Node.Op}
    {f : Flooder} {bs : List Bytes} (ht : Node.Transmits (mesh.nodes a) op f bs) {e : Emission ι}
    (he : e ∈ mesh.emissions a op bs) {j : ℕ} (hj : e.cause = some j) :
    ∃ now sends, op = .relay now sends ∧ ∃ k p,
      (mesh.nodes a).flooder.pending.get? k = some p ∧ p.sendAt ≤ now ∧ mesh.took a k = some j := by
  have hmem : j ∈ (mesh.emissions a op bs).filterMap (relayOf? a) := by
    refine List.mem_filterMap.mpr ⟨e, he, ?_⟩
    obtain ⟨b, -, rfl⟩ := List.mem_map.mp he
    rw [relayOf?, if_pos rfl, hj]
  rw [h.relayedBy_emissions ht] at hmem
  cases op with
  | relay now sends =>
    simp only [if_true] at hmem
    exact ⟨now, sends, rfl, h.mem_took_due hmem⟩
  | _ => cases hmem

/-- What gentle runs ask for besides the lifetime of the keys. -/
def Roomy [DecidableEq ι] (mac : ι → Mac) (mesh : Mesh ι) : Op ι → Prop
  | .deliver i a _ _ => ∀ e ∈ mesh.air[i]?, e.sender ≠ a ∧ (i, a) ∉ mesh.got ∧
      ∀ k ∈ e.key?, k.1 ≠ (mesh.nodes a).identity.nodeId → (mesh.nodes a).flooder.seen.Room k
  | .originate a pkt => mesh.Gentle mac (.originate a pkt)
  | .act a op => mesh.Gentle mac (.act a op)

instance [DecidableEq ι] (mac : ι → Mac) (mesh : Mesh ι) (op : Op ι) :
    Decidable (mesh.Roomy mac op) :=
  match op with
  | .deliver i a _ _ => inferInstanceAs (Decidable (∀ e ∈ mesh.air[i]?,
      e.sender ≠ a ∧ (i, a) ∉ mesh.got ∧ ∀ k ∈ e.key?,
        k.1 ≠ (mesh.nodes a).identity.nodeId → (mesh.nodes a).flooder.seen.Room k))
  | .originate a pkt => inferInstanceAs (Decidable (mesh.Gentle mac (.originate a pkt)))
  | .act a op => inferInstanceAs (Decidable (mesh.Gentle mac (.act a op)))

end Mesh

/-! ### What enters a cache -/

namespace Flooder

variable {own : NodeId} {f : Flooder} {op : FloodOp} {k : Key} {ts : ℚ}

/-- What a cache holds after an operation it held before, or the operation entered it. -/
theorem entered_after (h : (f.after own op).seen.d.get? k = some ts) :
    op.Enters own k ts ∨ f.seen.d.get? k = some ts := by
  cases op with
  | receive pkt rssi clk draw =>
    have hadd (ha : ((f.seen.seen pkt.key clk.lookup).2.add pkt.key clk.insert).d.get? k =
        some ts) : pkt.key = k ∧ clk.insert = ts ∨ f.seen.d.get? k = some ts := by
      rcases SeenCache.get?_of_get?_add ha with ⟨rfl, rfl⟩ | ha
      · exact Or.inl ⟨rfl, rfl⟩
      · exact Or.inr (SeenCache.get?_of_get?_seen ha)
    rcases hrecv : f.onReceive pkt rssi clk draw with ⟨v, f'⟩
    simp only [after, hrecv] at h
    cases onReceive_cases hrecv with
    | duplicate _ _ _ => exact Or.inr (by simpa using h)
    | noHops _ _ _ _ => exact hadd h
    | scheduled _ _ _ _ _ => exact hadd h
    | _ => exact Or.inr h
  | due now => exact Or.inr h
  | announce packetId now =>
    rcases SeenCache.get?_of_get?_add h with ⟨rfl, rfl⟩ | hold
    · exact Or.inl ⟨rfl, rfl⟩
    · exact Or.inr hold

theorem ttl_after (own : NodeId) (f : Flooder) (op : FloodOp) :
    (f.after own op).seen.ttl = f.seen.ttl := by
  cases op with
  | receive pkt rssi clk draw =>
    rcases hrecv : f.onReceive pkt rssi clk draw with ⟨v, f'⟩
    simp only [after, hrecv]
    cases onReceive_cases hrecv <;> first
      | rfl
      | exact SeenCache.ttl_seen _ _ _
  | due now => rfl
  | announce packetId now => rfl

end Flooder

namespace Node

variable {c : Crypto} {n n' : Node} {op : Op} {es : List Event}

theorem entered_step (h : n.step c op = some (n', es)) {k : Key} {ts : ℚ}
    (hk : n'.flooder.seen.d.get? k = some ts) :
    (∃ fop, op.flood? = some fop ∧ fop.Enters n.identity.nodeId k ts) ∨
      n.flooder.seen.d.get? k = some ts := by
  rw [flooder_step h] at hk
  cases hop : op.flood? with
  | none =>
    rw [hop] at hk
    exact Or.inr hk
  | some fop =>
    rw [hop] at hk
    exact (Flooder.entered_after hk).imp_left fun henters => ⟨fop, rfl, henters⟩

theorem ttl_step (h : n.step c op = some (n', es)) :
    n'.flooder.seen.ttl = n.flooder.seen.ttl := by
  rw [flooder_step h]
  cases op.flood? with
  | none => rfl
  | some fop => exact Flooder.ttl_after _ _ _

end Node

/-- The mesh at a time, with the times of its transmissions. -/
structure TimedMesh (ι : Type) where
  mesh : Mesh ι
  now : ℚ
  sentAt : ℕ → ℚ

/-- How long a transmission is under way at most, and how late a relay is at most when it
goes out. The clock of a node may be off the true one. -/
structure Pace (ι : Type) where
  flight : ℚ
  gap : ℚ
  offset : ι → ℚ
  flight_nonneg : 0 ≤ flight
  gap_nonneg : 0 ≤ gap

namespace Pace

variable {ι : Type}

/-- The longest time from a transmission to a relay of it. -/
def hop (P : Pace ι) : ℚ := P.flight + cwMax + P.gap

/-- The longest time from the origin of a packet to a reception of it. -/
def span (P : Pace ι) (H : ℕ) : ℚ := H * P.hop + P.flight

theorem hop_nonneg (P : Pace ι) : 0 ≤ P.hop := by
  have hcw : 0 ≤ cwMax := by norm_num [cwMax]
  have hflight := P.flight_nonneg
  have hgap := P.gap_nonneg
  rw [hop]
  linarith

end Pace

namespace TimedMesh

variable {ι : Type} {c : Crypto} {mac : ι → Mac} {P : Pace ι} {s s' : TimedMesh ι} {H : ℕ}
  {past : List (ℚ × Mesh.Op ι)}

/-- The relays that are due go out no later than `gap` after they are, when the clock of their
node shows `out`. -/
def InTime (n : Node) (gap now out : ℚ) : Prop :=
  ∀ e ∈ n.flooder.pending.entries, e.2.sendAt ≤ now → out ≤ e.2.sendAt + gap

instance (n : Node) (gap now out : ℚ) : Decidable (InTime n gap now out) :=
  inferInstanceAs (Decidable (∀ e ∈ n.flooder.pending.entries, _ → _))

/-- The step ends at the given time, keeps to the pace, and the readings of its node lie
between its ends. -/
def Punctual (P : Pace ι) (s : TimedMesh ι) (i : ℚ × Mesh.Op ι) : Prop :=
  s.now ≤ i.1 ∧ match i.2 with
    | .deliver k a _ clk => i.1 ≤ s.sentAt k + P.flight ∧ 0 ≤ clk.draw ∧ clk.draw ≤ 1 ∧
        ∀ r ∈ [clk.receive.lookup, clk.receive.insert, clk.receive.schedule],
          s.now + P.offset a ≤ r ∧ r ≤ i.1 + P.offset a
    | .act a (.relay now _) => s.now + P.offset a ≤ now ∧ now ≤ i.1 + P.offset a ∧
        InTime (s.mesh.nodes a) P.gap now (i.1 + P.offset a)
    | _ => True

instance (P : Pace ι) (s : TimedMesh ι) : (i : ℚ × Mesh.Op ι) → Decidable (s.Punctual P i)
  | (t, .deliver k a _ clk) => inferInstanceAs (Decidable (s.now ≤ t ∧
      t ≤ s.sentAt k + P.flight ∧ 0 ≤ clk.draw ∧ clk.draw ≤ 1 ∧
        ∀ r ∈ [clk.receive.lookup, clk.receive.insert, clk.receive.schedule],
          s.now + P.offset a ≤ r ∧ r ≤ t + P.offset a))
  | (t, .act a (.relay now _)) => inferInstanceAs (Decidable (s.now ≤ t ∧
      s.now + P.offset a ≤ now ∧ now ≤ t + P.offset a ∧
        InTime (s.mesh.nodes a) P.gap now (t + P.offset a)))
  | (t, .originate _ _) => inferInstanceAs (Decidable (s.now ≤ t ∧ True))
  | (t, .act _ (.frame _ _ _)) | (t, .act _ (.announce _ _)) | (t, .act _ (.tick _))
  | (t, .act _ (.flush _)) | (t, .act _ (.expire _ _ _)) | (t, .act _ (.nextHop _))
  | (t, .act _ (.warm _)) => inferInstanceAs (Decidable (s.now ≤ t ∧ True))

/-! ### Times along a run -/

/-- Among the steps is a reception of the `j`-th transmission by `a` that draws the delay `x`
for a relay. -/
def Draws (past : List (ℚ × Mesh.Op ι)) (j : ℕ) (a : ι) (x : ℚ) : Prop :=
  ∃ t rssi clk, (t, Mesh.Op.deliver j a rssi clk) ∈ past ∧ 0 ≤ clk.draw ∧ clk.draw ≤ 1 ∧
    x = relayDelay rssi clk.draw

theorem Draws.mem {past : List (ℚ × Mesh.Op ι)} {j : ℕ} {a : ι} {x : ℚ} (h : Draws past j a x) :
    cwMin ≤ x ∧ x ≤ cwMax := by
  obtain ⟨t, rssi, clk, -, hdraw₀, hdraw₁, rfl⟩ := h
  exact relayDelay_mem rssi hdraw₀ hdraw₁

theorem Draws.append {past : List (ℚ × Mesh.Op ι)} {j : ℕ} {a : ι} {x : ℚ}
    (h : Draws past j a x) (i : ℚ × Mesh.Op ι) : Draws (past ++ [i]) j a x := by
  obtain ⟨t, rssi, clk, hmem, hdraw⟩ := h
  exact ⟨t, rssi, clk, List.mem_append_left _ hmem, hdraw⟩

/-- The times that a mesh keeps whose steps `past` have kept to the pace. -/
structure OnPace (P : Pace ι) (past : List (ℚ × Mesh.Op ι)) (s : TimedMesh ι) : Prop where
  causal : s.mesh.Causal
  sentAt_le_now : ∀ k < s.mesh.air.length, s.sentAt k ≤ s.now
  pending : ∀ a k p j, (s.mesh.nodes a).flooder.pending.get? k = some p →
    s.mesh.took a k = some j → ∃ x, Draws past j a x ∧
      s.sentAt j + x + P.offset a ≤ p.sendAt ∧
      p.sendAt ≤ s.sentAt j + P.flight + x + P.offset a
  air : ∀ k e j, s.mesh.air[k]? = some e → e.cause = some j → ∃ x, Draws past j e.sender x ∧
    s.sentAt j + x ≤ s.sentAt k ∧ s.sentAt k ≤ s.sentAt j + P.flight + x + P.gap

/-- Nothing waits and nothing was sent yet. -/
theorem onPace_fresh (h : s.mesh.Fresh) : s.OnPace P [] where
  causal := h.causal
  sentAt_le_now k hk := by simp [h.air] at hk
  pending a k p j hp := by simp [h.pending] at hp
  air k e j he := by simp [h.air] at he

/-- A flood goes on by relays, each within its bounds after the one before. -/
theorem OnPace.descends (h : s.OnPace P past) {o k d : ℕ} (hd : s.mesh.Descends o k d) :
    s.sentAt o + d * cwMin ≤ s.sentAt k ∧ s.sentAt k ≤ s.sentAt o + d * P.hop := by
  induction hd with
  | origin _ _ => simp
  | @relay k j d e he hj _ ih =>
    obtain ⟨x, hdraw, hlow, hhigh⟩ := h.air k e j he hj
    obtain ⟨hmin, hmax⟩ := hdraw.mem
    simp only [Pace.hop] at ih ⊢
    push_cast
    constructor <;> linarith

/-- Where the hop limits are `H` at most, a flood is over after `H` relays. -/
theorem OnPace.sentAt_le (h : s.OnPace P past) {o k d : ℕ} (hd : s.mesh.Descends o k d) {p : Packet}
    (hp : s.mesh.Carries o p) (hH : p.hopLimit ≤ H) : s.sentAt k ≤ s.sentAt o + H * P.hop := by
  obtain ⟨p', hp', -, hlimit⟩ := h.causal.carries hd
  obtain rfl := hp.unique hp'
  have hle : (d : ℚ) ≤ H := by exact_mod_cast hlimit.trans hH
  have hmul := mul_le_mul_of_nonneg_right hle P.hop_nonneg
  have hlate := (h.descends hd).2
  linarith

/-- The step leaves the times of what was in the air. -/
structure Passes (s s' : TimedMesh ι) (t : ℚ) : Prop where
  now_eq : s'.now = t
  sentAt_old : ∀ k < s.mesh.air.length, s'.sentAt k = s.sentAt k
  sentAt_new : ∀ k, s.mesh.air.length ≤ k → s'.sentAt k = t

theorem OnPace.past_step (h : s.OnPace P past) {t : ℚ} (hpass : Passes s s' t) (hle : s.now ≤ t)
    (k : ℕ) : s'.sentAt k ≤ s'.now := by
  rw [hpass.now_eq]
  by_cases hk : k < s.mesh.air.length
  · rw [hpass.sentAt_old k hk]
    exact (h.sentAt_le_now k hk).trans hle
  · rw [hpass.sentAt_new k (not_lt.mp hk)]

/-- What is sent at `t` keeps to the pace if it relays what was in the air in time. -/
theorem OnPace.air_append (h : s.OnPace P past) {i : ℚ × Mesh.Op ι} {t : ℚ}
    (hpass : Passes s s' t) {new : List (Emission ι)} (hair : s'.mesh.air = s.mesh.air ++ new)
    (hnew : ∀ e ∈ new, ∀ j, e.cause = some j → j < s.mesh.air.length ∧ ∃ x,
      Draws past j e.sender x ∧ s.sentAt j + x ≤ t ∧ t ≤ s.sentAt j + P.flight + x + P.gap)
    (k : ℕ) (e : Emission ι) (j : ℕ) (he : s'.mesh.air[k]? = some e) (hj : e.cause = some j) :
    ∃ x, Draws (past ++ [i]) j e.sender x ∧ s'.sentAt j + x ≤ s'.sentAt k ∧
      s'.sentAt k ≤ s'.sentAt j + P.flight + x + P.gap := by
  rw [hair] at he
  by_cases hk : k < s.mesh.air.length
  · rw [List.getElem?_append_left hk] at he
    rw [hpass.sentAt_old k hk, hpass.sentAt_old j ((h.causal.cause_lt he hj).trans hk)]
    obtain ⟨x, hdraw, hbounds⟩ := h.air k e j he hj
    exact ⟨x, hdraw.append i, hbounds⟩
  · rw [List.getElem?_append_right (not_lt.mp hk)] at he
    obtain ⟨hlt, x, hdraw, hbounds⟩ := hnew e (List.mem_of_getElem? he) j hj
    rw [hpass.sentAt_new k (not_lt.mp hk), hpass.sentAt_old j hlt]
    exact ⟨x, hdraw.append i, hbounds⟩

/-- A relay that goes on to wait. -/
theorem OnPace.pending_old (h : s.OnPace P past) {i : ℚ × Mesh.Op ι} {t : ℚ}
    (hpass : Passes s s' t) {a : ι} {k : Key} {p : Pending} {j : ℕ}
    (hp : (s.mesh.nodes a).flooder.pending.get? k = some p) (hj : s.mesh.took a k = some j) :
    ∃ x, Draws (past ++ [i]) j a x ∧ s'.sentAt j + x + P.offset a ≤ p.sendAt ∧
      p.sendAt ≤ s'.sentAt j + P.flight + x + P.offset a := by
  rw [hpass.sentAt_old j (h.causal.took_lt hp hj)]
  obtain ⟨x, hdraw, hbounds⟩ := h.pending a k p j hp hj
  exact ⟨x, hdraw.append i, hbounds⟩

/-! ### Caches that last -/

/-- The keys of others in the caches are those of packets sent before, and the caches last
for as long as a packet is under way. -/
structure Dated (P : Pace ι) (H : ℕ) (s : TimedMesh ι) : Prop where
  lasts : ∀ a, P.span H ≤ (s.mesh.nodes a).flooder.seen.ttl
  entered : ∀ a k ts, k.1 ≠ (s.mesh.nodes a).identity.nodeId →
    (s.mesh.nodes a).flooder.seen.d.get? k = some ts → ∃ o e, s.mesh.air[o]? = some e ∧
      e.cause = none ∧ e.key? = some k ∧ s.sentAt o + P.offset a ≤ ts

theorem Dated.entered_old (h : s.Dated P H) {t : ℚ} (hpass : Passes s s' t)
    (hext : s.mesh.Extends s'.mesh) {a : ι} {k : Key} {ts : ℚ}
    (hk : k.1 ≠ (s.mesh.nodes a).identity.nodeId)
    (hts : (s.mesh.nodes a).flooder.seen.d.get? k = some ts) :
    ∃ o e, s'.mesh.air[o]? = some e ∧ e.cause = none ∧ e.key? = some k ∧
      s'.sentAt o + P.offset a ≤ ts := by
  obtain ⟨o, e, he, hnone, hkey, hle⟩ := h.entered a k ts hk hts
  refine ⟨o, e, hext.getElem? he, hnone, hkey, ?_⟩
  rwa [hpass.sentAt_old o (List.getElem?_eq_some_iff.mp he).1]

/-- What is received was sent before it is entered. -/
theorem OnPace.exists_origin (h : s.OnPace P past) {k : ℕ} {e : Emission ι} {key : Key}
    (he : s.mesh.air[k]? = some e) (hkey : e.key? = some key) :
    ∃ o e₀ d p, s.mesh.air[o]? = some e₀ ∧ e₀.cause = none ∧ e₀.key? = some key ∧
      Packet.fromBytes e₀.data = .ok p ∧ s.mesh.Descends o k d := by
  obtain ⟨o, d, hd⟩ := h.causal.exists_descends he
  obtain ⟨e₀, p, h₀, hp, hnone, -⟩ := h.causal.original hd
  obtain ⟨p', hp', ⟨e', he', hq⟩, -⟩ := h.causal.carries hd
  obtain rfl := hp'.unique ⟨e₀, h₀, hp⟩
  obtain rfl := Option.some.inj (he.symm.trans he')
  obtain rfl := Option.some.inj (hkey.symm.trans (Emission.key?_eq hq))
  have hkey₀ : e₀.key? = some p'.key := Emission.key?_eq hp
  exact ⟨o, e₀, d, p', h₀, hnone, hkey₀, hp, hd⟩

/-! ### Steps in time -/

section Step

variable [DecidableEq ι] {i : ℚ × Mesh.Op ι} {es : List Event}

/-- A step of the mesh, with the time at which it ends. -/
def step (c : Crypto) (mac : ι → Mac) (s : TimedMesh ι) (i : ℚ × Mesh.Op ι) :
    Option (TimedMesh ι × List Event) :=
  (s.mesh.step c mac i.2).map fun r =>
    (⟨r.1, i.1, fun k => if k < s.mesh.air.length then s.sentAt k else i.1⟩, r.2)

theorem step_eq_some_iff : s.step c mac i = some (s', es) ↔
    s.mesh.step c mac i.2 = some (s'.mesh, es) ∧ s'.now = i.1 ∧
      s'.sentAt = fun k => if k < s.mesh.air.length then s.sentAt k else i.1 := by
  rw [step, Option.map_eq_some_iff]
  constructor
  · rintro ⟨⟨m, es'⟩, hm, heq⟩
    obtain ⟨rfl, rfl⟩ := Prod.mk.inj heq
    exact ⟨hm, rfl, rfl⟩
  · rintro ⟨hm, hnow, hsent⟩
    obtain ⟨mesh, now, sentAt⟩ := s'
    subst hnow hsent
    exact ⟨_, hm, rfl⟩

theorem passes_step (h : s.step c mac i = some (s', es)) : Passes s s' i.1 := by
  obtain ⟨-, hnow, hsent⟩ := step_eq_some_iff.mp h
  refine ⟨hnow, fun k hk => ?_, fun k hk => ?_⟩
  · rw [hsent]
    exact if_pos hk
  · rw [hsent]
    exact if_neg (not_lt.mpr hk)

theorem OnPace.step (h : s.OnPace P past) (hP : s.Punctual P i)
    (hx : s.step c mac i = some (s', es)) : s'.OnPace P (past ++ [i]) := by
  have hmesh := (step_eq_some_iff.mp hx).1
  have hpass := passes_step hx
  have hcausal := h.causal.step hmesh
  obtain ⟨t, op⟩ := i
  obtain ⟨hle, hP⟩ := hP
  dsimp only at hmesh hpass hle hP
  obtain ⟨mesh', now', sentAt'⟩ := s'
  dsimp only at hmesh hcausal
  cases Mesh.step_cases hmesh with
  | @deliver k a rssi clk e n es he hn =>
    obtain ⟨hflight, hdraw₀, hdraw₁, hreadings⟩ := hP
    refine ⟨hcausal, fun k _ => h.past_step hpass hle k, fun b key p j hp hj => ?_,
      h.air_append hpass (List.append_nil _).symm (by simp)⟩
    by_cases hb : b = a
    · subst hb
      dsimp only at hp hj
      rw [Mesh.nodes_delivered_self] at hp
      rcases h.causal.took_delivered he hn hp with ⟨q, hq, hsend, hsame⟩ | ⟨hlast, hsend⟩
      · rw [hsend]
        exact h.pending_old hpass hq (hsame ▸ hj)
      · obtain rfl := Option.some.inj (hlast.symm.trans hj)
        have hk := (List.getElem?_eq_some_iff.mp he).1
        have hdraw : Draws (past ++ [(t, .deliver k b rssi clk)]) k b (relayDelay rssi clk.draw) :=
          ⟨t, rssi, clk, List.mem_append_right _ (List.mem_singleton_self _), hdraw₀, hdraw₁, rfl⟩
        obtain ⟨hlow, hhigh⟩ := hreadings clk.receive.schedule (by simp)
        have hpast := h.sentAt_le_now k hk
        rw [hpass.sentAt_old k hk, hsend]
        exact ⟨_, hdraw, by linarith, by linarith⟩
    · dsimp only at hp hj
      rw [Mesh.nodes_delivered_of_ne hb] at hp
      rw [Mesh.took_delivered_of_ne hb] at hj
      exact h.pending_old hpass hp hj
  | @originate a pkt b horig hb =>
    refine ⟨hcausal, fun k _ => h.past_step hpass hle k, fun x key p j hp hj =>
      h.pending_old hpass hp hj, h.air_append hpass rfl fun e he j hj => ?_⟩
    obtain rfl := List.mem_singleton.mp he
    cases hj
  | @act a op n es hop hn =>
    have ht := Node.transmits_step hop hn
    refine ⟨hcausal, fun k _ => h.past_step hpass hle k, fun b key p j hp hj => ?_,
      h.air_append hpass rfl fun e he j hj => ?_⟩
    · refine h.pending_old hpass ?_ hj
      by_cases hb : b = a
      · subst hb
        dsimp only at hp
        rw [Mesh.nodes_acted_self] at hp
        exact ht.pending_of_pending hp
      · dsimp only at hp
        rwa [Mesh.nodes_acted_of_ne hb] at hp
    · obtain ⟨now, sends, rfl, key, p, hp, hdue, htook⟩ := h.causal.cause_emissions ht he hj
      obtain ⟨-, hnow, htime⟩ := hP
      have hout := htime (key, p) (OrderedDict.get?_eq_some_iff.mp hp) hdue
      obtain ⟨x, hdraw, hmin, hmax⟩ := h.pending a key p j hp htook
      obtain ⟨b, -, rfl⟩ := List.mem_map.mp he
      dsimp only at hout
      exact ⟨h.causal.took_lt hp htook, x, hdraw, by linarith, by linarith⟩

theorem Dated.step (h : s.Dated P H) (hpace : s.OnPace P past) (hP : s.Punctual P i)
    (hx : s.step c mac i = some (s', es)) : s'.Dated P H := by
  have hmesh := (step_eq_some_iff.mp hx).1
  have hpass := passes_step hx
  have hext := Mesh.extends_step hmesh
  obtain ⟨t, op⟩ := i
  obtain ⟨-, hP⟩ := hP
  obtain ⟨mesh', now', sentAt'⟩ := s'
  dsimp only at hmesh hpass hext hP
  cases Mesh.step_cases hmesh with
  | @deliver j a rssi clk e n es he hn =>
    have hnode : (s.mesh.nodes a).step c (.frame e.data ⟨mac e.sender, rssi⟩ clk) = some (n, es) :=
      hn
    refine ⟨fun b => ?_, fun b k ts hk hts => ?_⟩
    · by_cases hb : b = a
      · subst hb
        rw [Mesh.nodes_delivered_self, Node.ttl_step hnode]
        exact h.lasts b
      · rw [Mesh.nodes_delivered_of_ne hb]
        exact h.lasts b
    · rw [Mesh.nodeId_delivered hn] at hk
      by_cases hb : b = a
      · subst hb
        rw [Mesh.nodes_delivered_self] at hts
        rcases Node.entered_step hnode hts with ⟨fop, hfop, henters⟩ | hold
        · obtain ⟨pkt, hpkt, -⟩ := hpace.causal.air j e he
          rw [Node.flood?_frame hpkt] at hfop
          obtain rfl := Option.some.inj hfop
          obtain ⟨rfl, rfl⟩ := henters
          obtain ⟨o, e₀, d, p, h₀, hnone, hkey, -, hd⟩ :=
            hpace.exists_origin he (Emission.key?_eq hpkt)
          refine ⟨o, e₀, hext.getElem? h₀, hnone, hkey, ?_⟩
          have hlow := (hP.2.2.2 clk.receive.insert (by simp)).1
          have hpast := hpace.sentAt_le_now j (List.getElem?_eq_some_iff.mp he).1
          have hfirst := (hpace.descends hd).1
          have hcw : (0 : ℚ) ≤ d * cwMin := mul_nonneg (Nat.cast_nonneg d) (by norm_num [cwMin])
          rw [hpass.sentAt_old o (List.getElem?_eq_some_iff.mp h₀).1]
          linarith
        · exact h.entered_old hpass hext hk hold
      · rw [Mesh.nodes_delivered_of_ne hb] at hts
        exact h.entered_old hpass hext hk hts
  | originate b _ _ =>
    exact ⟨h.lasts, fun x k ts hk hts => h.entered_old hpass hext hk hts⟩
  | @act a op n es hop hn =>
    refine ⟨fun b => ?_, fun b k ts hk hts => ?_⟩
    · by_cases hb : b = a
      · subst hb
        rw [Mesh.nodes_acted_self, Node.ttl_step hn]
        exact h.lasts b
      · rw [Mesh.nodes_acted_of_ne hb]
        exact h.lasts b
    · rw [Mesh.nodeId_acted hn] at hk
      refine h.entered_old hpass hext hk ?_
      by_cases hb : b = a
      · subst hb
        rw [Mesh.nodes_acted_self] at hts
        rcases Node.entered_step hn hts with ⟨fop, hfop, henters⟩ | hold
        · cases op with
          | relay now sends =>
            obtain rfl := Option.some.inj hfop
            cases henters
          | announce d ok =>
            obtain rfl := Option.some.inj hfop
            exact absurd (congrArg Prod.fst henters.1).symm hk
          | frame _ _ _ => cases hop
          | _ => cases hfop
        · exact hold
      · rwa [Mesh.nodes_acted_of_ne hb] at hts

/-- No reception meets a key past its lifetime. -/
theorem Dated.age_le (h : s.Dated P H) (hpace : s.OnPace P past) (hledger : s.mesh.Ledger)
    (hH : ∀ (o : ℕ) (e : Emission ι) (p : Packet), s.mesh.air[o]? = some e → e.cause = none →
      Packet.fromBytes e.data = .ok p → p.hopLimit ≤ H) {t : ℚ} {k : ℕ} {a : ι} {rssi : Option ℤ}
    {clk : HandleClock} (hP : s.Punctual P (t, .deliver k a rssi clk)) {e : Emission ι}
    (he : s.mesh.air[k]? = some e) {key : Key} (hkey : e.key? = some key)
    (hforeign : key.1 ≠ (s.mesh.nodes a).identity.nodeId) {ts : ℚ}
    (hts : (s.mesh.nodes a).flooder.seen.d.get? key = some ts) :
    clk.receive.lookup - ts ≤ (s.mesh.nodes a).flooder.seen.ttl := by
  obtain ⟨-, hflight, -, -, hreadings⟩ := hP
  obtain ⟨o, e₀, h₀, hnone, hkey₀, hle⟩ := h.entered a key ts hforeign hts
  obtain ⟨o', e₁, d, p, h₁, hnone₁, hkey₁, hp, hd⟩ := hpace.exists_origin he hkey
  obtain rfl := hledger.original_unique h₀ h₁ hkey₀ hkey₁ hnone hnone₁
  have hlate := hpace.sentAt_le hd ⟨e₁, h₁, hp⟩ (hH o e₁ p h₁ hnone₁ hp)
  have hread := (hreadings clk.receive.lookup (by simp)).2
  have hlasts := h.lasts a
  rw [Pace.span] at hlasts
  linarith

theorem onPace_exec (h : s.mesh.Fresh) {ins : List (ℚ × Mesh.Op ι)} {ess : List (List Event)}
    (hx : exec (guarded (Punctual P) (step c mac)) s ins = some (s', ess)) : s'.OnPace P ins :=
  exec_history (fun past u => OnPace P past u) (fun h hx => by
    obtain ⟨hP, hx⟩ := guarded_eq_some_iff.mp hx
    exact h.step hP hx) (onPace_fresh h) hx

/-- A step that keeps to the pace is gentle where there is room. -/
theorem Dated.gentle (h : s.Dated P H) (hpace : s.OnPace P past) (hledger : s.mesh.Ledger)
    (hH : ∀ (o : ℕ) (e : Emission ι) (p : Packet), s.mesh.air[o]? = some e → e.cause = none →
      Packet.fromBytes e.data = .ok p → p.hopLimit ≤ H) (hP : s.Punctual P i)
    (hroomy : s.mesh.Roomy mac i.2) : s.mesh.Gentle mac i.2 := by
  obtain ⟨t, op⟩ := i
  cases op with
  | deliver k a rssi clk =>
    intro e he
    obtain ⟨hsender, hnew, hroom⟩ := hroomy e he
    refine ⟨hsender, hnew, fun fop hfop => ?_⟩
    obtain ⟨pkt, hpkt, -⟩ := hpace.causal.air k e he
    rw [Node.flood?_frame hpkt] at hfop
    obtain rfl := Option.some.inj hfop
    intro hown
    rw [hpace.causal.own] at hown
    have hforeign : pkt.key.1 ≠ (s.mesh.nodes a).identity.nodeId := fun hsrc =>
      hown (congrArg some hsrc.symm)
    have hkey := Emission.key?_eq hpkt
    exact ⟨hroom pkt.key hkey hforeign, fun ts hts =>
      h.age_le hpace hledger hH hP he hkey hforeign hts⟩
  | originate a pkt => exact hroomy
  | act a op => exact hroomy

/-- The step keeps to the pace and meets room. -/
def Steady (P : Pace ι) (mac : ι → Mac) (s : TimedMesh ι) (i : ℚ × Mesh.Op ι) : Prop :=
  s.Punctual P i ∧ s.mesh.Roomy mac i.2

instance (P : Pace ι) (mac : ι → Mac) (s : TimedMesh ι) (i : ℚ × Mesh.Op ι) :
    Decidable (s.Steady P mac i) := inferInstanceAs (Decidable (_ ∧ _))

theorem extends_exec {ins : List (ℚ × Mesh.Op ι)} {ess : List (List Event)}
    (hx : exec (step c mac) s ins = some (s', ess)) : s.mesh.Extends s'.mesh := by
  have hstep {u u' : TimedMesh ι} {i : ℚ × Mesh.Op ι} {es : List Event}
      (hu : s.mesh.Extends u.mesh) (_ : True) (hone : step c mac u i = some (u', es)) :
      s.mesh.Extends u'.mesh := hu.trans (Mesh.extends_step (step_eq_some_iff.mp hone).1)
  exact exec_invariant hstep (Mesh.Extends.refl s.mesh) (fun _ _ => trivial) hx

/-- Without its times, a steady run is a gentle one. -/
theorem Dated.exec_gentle (h : s.Dated P H) (hpace : s.OnPace P past) (hledger : s.mesh.Ledger)
    {ins : List (ℚ × Mesh.Op ι)} {ess : List (List Event)}
    (hx : exec (guarded (Steady P mac) (TimedMesh.step c mac)) s ins = some (s', ess))
    (hH : ∀ (o : ℕ) (e : Emission ι) (p : Packet), s'.mesh.air[o]? = some e → e.cause = none →
      Packet.fromBytes e.data = .ok p → p.hopLimit ≤ H) :
    exec (guarded (Mesh.Gentle mac) (Mesh.step c mac)) s.mesh (ins.map Prod.snd) =
      some (s'.mesh, ess) := by
  induction ins generalizing s past ess with
  | nil =>
    obtain ⟨rfl, rfl⟩ := Prod.mk.inj (Option.some.inj hx)
    rfl
  | cons i ins ih =>
    have hext := extends_exec (exec_of_guarded hx)
    obtain ⟨u, o, os, hone, hrest, rfl⟩ := exec_cons_iff.mp hx
    obtain ⟨⟨hP, hroomy⟩, hone⟩ := guarded_eq_some_iff.mp hone
    have hmesh := (step_eq_some_iff.mp hone).1
    have hgentle := h.gentle hpace hledger (fun o e p he => hH o e p (hext.getElem? he)) hP hroomy
    exact exec_cons_iff.mpr ⟨u.mesh, o, os, guarded_eq_some_iff.mpr ⟨hgentle, hmesh⟩,
      ih (h.step hpace hP hone) (hpace.step hP hone) (hledger.step hgentle hmesh) hrest, rfl⟩

end Step

end TimedMesh

variable {ι : Type} [DecidableEq ι]

/-- In every run of the mesh that keeps to the pace `P`, from a start where nothing waits:
a transmission over `d` relays is between `d * CW_MIN` and `d` times the longest hop later
than the origin of its flood, and `d` is at most the hop limit. So a flood is over when so
many hops have passed. -/
theorem floods_take_their_time (c : Crypto) (mac : ι → Mac) (P : Pace ι) {s₀ s : TimedMesh ι}
    (h₀ : s₀.mesh.Fresh) {ins : List (ℚ × Mesh.Op ι)} {ess : List (List Event)}
    (hx : exec (guarded (TimedMesh.Punctual P) (TimedMesh.step c mac)) s₀ ins = some (s, ess))
    {o k d : ℕ} {p : Packet} (hp : s.mesh.Carries o p) (hd : s.mesh.Descends o k d) :
    (d : ℤ) ≤ p.hopLimit ∧ s.sentAt o + d * cwMin ≤ s.sentAt k ∧
      s.sentAt k ≤ s.sentAt o + d * P.hop ∧ s.sentAt k ≤ s.sentAt o + p.hopLimit * P.hop := by
  have h := TimedMesh.onPace_exec h₀ hx
  obtain ⟨p', hp', -, hle⟩ := h.causal.carries hd
  obtain rfl := hp.unique hp'
  obtain ⟨hlow, hhigh⟩ := h.descends hd
  have hlimit : ((p.hopLimit.toNat : ℕ) : ℚ) = p.hopLimit := by
    exact_mod_cast Int.toNat_of_nonneg ((Int.natCast_nonneg d).trans hle)
  have hover := h.sentAt_le (H := p.hopLimit.toNat) hd hp (by omega)
  rw [hlimit] at hover
  exact ⟨hle, hlow, hhigh, hover⟩

/-- A line of three at time 100. -/
def timedLine : TimedMesh (Fin 3) := ⟨lineMesh, 100, fun _ => 100⟩

/-- A second at most on the way, and a second late at most. -/
def secondPace : Pace (Fin 3) := ⟨1, 1, fun _ => 0, by decide, by decide⟩

def timedRelay : List (ℚ × Mesh.Op (Fin 3)) := [100, 100, 101, 101].zip lineRelay

theorem floods_take_their_time_line : ∃ s ess,
    exec (guarded (TimedMesh.Punctual secondPace) (TimedMesh.step lineCrypto lineMac)) timedLine
      timedRelay = some (s, ess) ∧ s.sentAt 0 = 100 ∧ s.sentAt 1 = 101 ∧
    ∀ o k d p, s.mesh.Carries o p → s.mesh.Descends o k d →
      s.sentAt k ≤ s.sentAt o + p.hopLimit * secondPace.hop := by
  have hrun : (exec (guarded (TimedMesh.Punctual secondPace) (TimedMesh.step lineCrypto lineMac))
      timedLine timedRelay).map (fun r => (r.1.sentAt 0, r.1.sentAt 1)) = some (100, 101) := by
    decide +kernel
  obtain ⟨⟨s, ess⟩, hx, htimes⟩ := Option.map_eq_some_iff.mp hrun
  obtain ⟨hzero, hone⟩ := Prod.mk.inj htimes
  exact ⟨s, ess, hx, hzero, hone, fun o k d p hp hd => (floods_take_their_time lineCrypto lineMac
    secondPace fresh_lineMesh hx hp hd).2.2.2⟩

/-- Where packets have at most `H` hops, the caches are empty at the start and last for `H`
hops and a flight, and packet ids are fresh: in every run that keeps to the pace, in which
the radio hands nobody a transmission twice and no cache is full, no reception meets a key
past its lifetime. So no node transmits a packet twice. -/
theorem lifetime_covers_floods (c : Crypto) (mac : ι → Mac) (P : Pace ι) {H : ℕ}
    {s₀ s : TimedMesh ι} (h₀ : s₀.mesh.Fresh)
    (hempty : ∀ a, (s₀.mesh.nodes a).flooder.seen.d = OrderedDict.empty)
    (hlasts : ∀ a, P.span H ≤ (s₀.mesh.nodes a).flooder.seen.ttl)
    {ins : List (ℚ × Mesh.Op ι)} {ess : List (List Event)}
    (hx : exec (guarded (TimedMesh.Steady P mac) (TimedMesh.step c mac)) s₀ ins = some (s, ess))
    (hH : ∀ (o : ℕ) (e : Emission ι) (p : Packet), s.mesh.air[o]? = some e → e.cause = none →
      Packet.fromBytes e.data = .ok p → p.hopLimit ≤ H) :
    exec (guarded (Mesh.Gentle mac) (Mesh.step c mac)) s₀.mesh (ins.map Prod.snd) =
      some (s.mesh, ess) ∧ ∀ k, (s.mesh.senders k).Nodup := by
  have hsize (a : ι) : (s₀.mesh.nodes a).flooder.seen.d.size ≤
      (s₀.mesh.nodes a).flooder.seen.capacity := by
    rw [hempty]
    exact Nat.zero_le _
  have hdated : s₀.Dated P H := ⟨hlasts, fun a k ts _ hts => by simp [hempty] at hts⟩
  have hledger := h₀.ledger hsize
  have hgentle := hdated.exec_gentle (TimedMesh.onPace_fresh h₀) hledger hx hH
  exact ⟨hgentle, (hledger.exec hgentle).nodup_senders⟩

/-- The packets of the line have the default number of hops, for which the caches last. -/
theorem lifetime_covers_floods_line : ∃ s ess,
    exec (guarded (TimedMesh.Steady secondPace lineMac) (TimedMesh.step lineCrypto lineMac))
      timedLine timedRelay = some (s, ess) ∧ s.mesh.air.length = 2 ∧
    ∀ k, (s.mesh.senders k).Nodup := by
  have hrun : (exec (guarded (TimedMesh.Steady secondPace lineMac)
      (TimedMesh.step lineCrypto lineMac)) timedLine timedRelay).map (fun r =>
        (r.1.mesh.air.length, decide (∀ e ∈ r.1.mesh.air, ∀ p ∈ (Packet.fromBytes e.data).toOption,
          p.hopLimit ≤ defaultHopLimit))) = some (2, true) := by
    decide +kernel
  obtain ⟨⟨s, ess⟩, hx, hfacts⟩ := Option.map_eq_some_iff.mp hrun
  obtain ⟨hlength, hlimits⟩ := Prod.mk.inj hfacts
  have hH (o : ℕ) (e : Emission (Fin 3)) (p : Packet) (he : s.mesh.air[o]? = some e)
      (_ : e.cause = none) (hp : Packet.fromBytes e.data = .ok p) :
      p.hopLimit ≤ (defaultHopLimit.toNat : ℤ) :=
    of_decide_eq_true hlimits e (List.mem_of_getElem? he) p (by rw [hp]; rfl)
  exact ⟨s, ess, hx, hlength, (lifetime_covers_floods lineCrypto lineMac secondPace
    fresh_lineMesh (fun _ => rfl) (by decide +kernel) hx
    hH).2⟩

end Beachedmesh
