import Beachedmesh.Expiry
import Beachedmesh.NodeFlooder
import Beachedmesh.Replay

/-!
# The monitor beside the daemon

`beachedmesh-monitor` keeps a route table of its own. It has no flooder, verifies every
copy, and counts hops from the default limit, where a node counts from its own. The two
tables agree along a run in which both counts agree on every announce.
-/
namespace Beachedmesh
open Machine

/-! ### The monitor -/

namespace Monitor

/-- The arguments that `monitor` passes to `learn`. -/
def copyOf (pkt : Packet) (m : FrameMeta) (info : AnnounceInfo) : Copy where
  nodeId := pkt.src
  nextHop := m.srcMac
  hops := (defaultHopLimit - pkt.hopLimit).toNat
  rssi := m.rssi
  signPub := some info.signPub
  encryptPub := some info.encryptPub
  name := decodeReplace info.appData

/-- One received frame, with what `learn` answered. -/
def frame (c : Crypto) (t : RouteTable) (data : Bytes) (m : FrameMeta) (clk : HandleClock) :
    Option (RouteTable × Option LearnVerdict) :=
  match Packet.fromBytes data with
  | .error _ => some (t, none)
  | .ok pkt =>
    if pkt.type ≠ typeAnnounce then some (t, none)
    else match parseAnnounce c pkt.src pkt.payload with
      | .error _ => some (t, none)
      | .ok info => (t.learn (copyOf pkt m info) clk.now clk.mono).map fun r => (r.2, some r.1)

/-- The parts of the loop; what a daemon sends is nothing to the monitor. -/
def step (c : Crypto) (t : RouteTable) : Node.Op → Option (RouteTable × Option LearnVerdict)
  | .frame data m clk => frame c t data m clk
  | .tick clk => (t.tick clk).map fun t' => (t', none)
  | .expire _ now nowCold => some ((t.expire now nowCold).2, none)
  | _ => some (t, none)

/-- What one turn of the loop meets: what `recv` returned, and the readings. -/
structure Turn where
  got : Option (Bytes × FrameMeta × HandleClock)
  tick : TickClock
  check : ℚ
  expireNow : ℚ
  expireCold : ℚ
  expired : ℚ

/-- One turn, from the table and `last_expire`: the maintenance comes before the frame. -/
def turn (c : Crypto) (s : RouteTable × ℚ) (i : Turn) : Option (RouteTable × ℚ) :=
  (s.1.tick i.tick).bind fun t =>
    let s' := if i.check - s.2 > 30 then ((t.expire i.expireNow i.expireCold).2, i.expired)
      else (t, s.2)
    match i.got with
    | none => some s'
    | some (data, m, clk) => (frame c s'.1 data m clk).map fun r => (r.1, s'.2)

end Monitor

/-- The steps of a daemon that only listens, relays and announces. -/
def Node.Op.onAir : Node.Op → Bool
  | .frame _ _ _ | .relay _ _ | .announce _ _ | .tick _ | .expire _ _ _ => true
  | .flush _ | .nextHop _ | .warm _ => false

/-! ### Stores that differ in keys and names -/

namespace ColdStore

structure Twins (s d : ColdStore) : Prop where
  lastFlush_eq : d.lastFlush = s.lastFlush
  keys_eq : d.buf.keys = s.buf.keys
  buffered : ∀ n, (d.buf.get? n).map Hearing.bearing = (s.buf.get? n).map Hearing.bearing
  onDisk : ∀ n, (d.rows.get? n).map Row.bearing = (s.rows.get? n).map Row.bearing

variable {s d : ColdStore}

theorem Twins.refl (s : ColdStore) : Twins s s := ⟨rfl, rfl, fun _ => rfl, fun _ => rfl⟩

theorem Twins.size_eq (h : Twins s d) : d.buf.size = s.buf.size := by
  rw [← OrderedDict.length_keys, h.keys_eq, OrderedDict.length_keys]

theorem Twins.bearing?_eq (h : Twins s d) (n : NodeId) : d.bearing? n = s.bearing? n := by
  have hb := h.buffered n
  rw [ColdStore.bearing?_eq, ColdStore.bearing?_eq]
  cases hs : s.buf.get? n <;> cases hd : d.buf.get? n <;> rw [hs, hd] at hb
  · exact h.onDisk n
  · cases hb
  · cases hb
  · exact hb

theorem Twins.flush (h : Twins s d) (mono : ℚ) : Twins (s.flush mono) (d.flush mono) where
  lastFlush_eq := by rw [lastFlush_flush, lastFlush_flush]
  keys_eq := by rw [buf_flush, buf_flush]
  buffered := fun n => by rw [buf_flush, buf_flush]
  onDisk := by
    intro n
    have hb := h.buffered n
    rw [get?_rows_flush, get?_rows_flush]
    cases hs : s.buf.get? n <;> cases hd : d.buf.get? n <;> rw [hs, hd] at hb
    · exact h.onDisk n
    · cases hb
    · cases hb
    · simpa [Row.bearing, Hearing.bearing] using hb

theorem Twins.maybeFlush (h : Twins s d) (check done : ℚ) :
    Twins (s.maybeFlush check done) (d.maybeFlush check done) := by
  rw [ColdStore.maybeFlush, ColdStore.maybeFlush, h.size_eq, h.lastFlush_eq]
  split_ifs
  · exact h.flush done
  · exact h

theorem Twins.buffer (h : Twins s d) (n : NodeId) {x y : Hearing} (hxy : y.bearing = x.bearing)
    (mono : ℚ) : Twins (s.buffer n x mono) (d.buffer n y mono) := by
  have hins : Twins { s with buf := s.buf.insert n (s.merge n x) }
      { d with buf := d.buf.insert n (d.merge n y) } := by
    refine ⟨h.lastFlush_eq, ?_, fun m => ?_, h.onDisk⟩
    · by_cases hn : n ∈ s.buf.keys
      · rw [OrderedDict.keys_insert_of_mem _ hn,
          OrderedDict.keys_insert_of_mem _ (h.keys_eq ▸ hn), h.keys_eq]
      · rw [OrderedDict.keys_insert_of_not_mem _ hn,
          OrderedDict.keys_insert_of_not_mem _ (h.keys_eq ▸ hn), h.keys_eq]
    · rw [OrderedDict.get?_insert, OrderedDict.get?_insert]
      split_ifs
      · simpa [Hearing.bearing] using hxy
      · exact h.buffered m
  rw [buffer_eq, buffer_eq, hins.size_eq]
  split_ifs
  · exact hins.flush mono
  · exact hins

theorem Twins.expire (h : Twins s d) (ttl now : ℚ) :
    Twins (s.expire ttl now) (d.expire ttl now) where
  lastFlush_eq := h.lastFlush_eq
  keys_eq := h.keys_eq
  buffered := h.buffered
  onDisk := by
    intro n
    have hr := h.onDisk n
    rw [ColdStore.expire, ColdStore.expire, OrderedDict.get?_filter, OrderedDict.get?_filter]
    cases hs : s.rows.get? n with
    | none =>
      rw [hs] at hr
      rw [Option.map_eq_none_iff.mp hr]
    | some r =>
      rw [hs] at hr
      obtain ⟨q, hd, hq⟩ := Option.map_eq_some_iff.mp hr
      have hseen : q.lastSeen = r.lastSeen := congrArg Bearing.lastSeen hq
      rw [hd]
      simp only [Option.filter_some, hseen]
      split_ifs
      · rw [Option.map_some, hq, Option.map_some]
      · rfl

end ColdStore

namespace RouteTable

/-- Tables that are one up to the keys and names in their stores. -/
structure Twins (t u : RouteTable) : Prop where
  ownId_eq : u.ownId = t.ownId
  ttl_eq : u.ttl = t.ttl
  maxHot_eq : u.maxHot = t.maxHot
  hot_eq : u.hot = t.hot
  pending_eq : u.pending = t.pending
  cold : Option.Rel ColdStore.Twins t.cold u.cold

variable {t u t' : RouteTable}

theorem Twins.refl (t : RouteTable) : Twins t t := by
  refine ⟨rfl, rfl, rfl, rfl, rfl, ?_⟩
  cases t.cold with
  | none => exact .none
  | some s => exact .some (.refl s)

/-- What is done to both stores. -/
theorem Twins.mapCold (h : Twins t u) {f g : ColdStore → ColdStore}
    (hfg : ∀ s d, s.Twins d → (f s).Twins (g d)) :
    Twins { t with cold := t.cold.map f } { u with cold := u.cold.map g } := by
  refine ⟨h.ownId_eq, h.ttl_eq, h.maxHot_eq, h.hot_eq, h.pending_eq, ?_⟩
  have hcold := h.cold
  dsimp only
  generalize t.cold = a, u.cold = b at hcold ⊢
  cases hcold with
  | none => exact .none
  | some hsd => exact .some (hfg _ _ hsd)

theorem Twins.note (h : Twins t u) (n : NodeId) {x y : Hearing} (hxy : y.bearing = x.bearing)
    (mono : ℚ) : Twins (t.note n x mono) (u.note n y mono) :=
  h.mapCold fun _ _ hsd => hsd.buffer n hxy mono

theorem Twins.withPending (h : Twins t u) (p : OrderedDict NodeId Settle) :
    Twins { t with pending := p } { u with pending := p } :=
  { h with pending_eq := rfl }

theorem Twins.dropPending (h : Twins t u) (n : NodeId) :
    Twins (t.dropPending n) (u.dropPending n) := by
  rw [RouteTable.dropPending, RouteTable.dropPending, h.pending_eq]
  exact h.withPending _

theorem Twins.place (h : Twins t u) (n : NodeId) (e : Packed) :
    Twins (t.place n e) (u.place n e) := by
  refine ⟨h.ownId_eq, h.ttl_eq, h.maxHot_eq, ?_, h.pending_eq, h.cold⟩
  rw [RouteTable.place, RouteTable.place, h.hot_eq, h.maxHot_eq]

/-- Copies that teach the same route, whatever else they carry. -/
structure SameRoute (c c' : Copy) : Prop where
  nodeId_eq : c'.nodeId = c.nodeId
  nextHop_eq : c'.nextHop = c.nextHop
  hops_eq : c'.hops = c.hops
  rssi_eq : c'.rssi = c.rssi

variable {c c' : Copy} {now mono : ℚ} {v : LearnVerdict}

theorem SameRoute.refl (c : Copy) : SameRoute c c := ⟨rfl, rfl, rfl, rfl⟩

theorem Twins.commit (h : Twins t u) (hc : SameRoute c c') (hx : t.commit c now mono = some t') :
    ∃ u', u.commit c' now mono = some u' ∧ Twins t' u' := by
  obtain ⟨e, he, rfl⟩ := commit_eq_some_iff.mp hx
  have he' : pack c'.nextHop c'.hops (c'.rssi.getD noRssi) (pyInt now) = some e := by
    rw [hc.nextHop_eq, hc.hops_eq, hc.rssi_eq, he]
  refine ⟨_, commit_eq_some_iff.mpr ⟨e, he', rfl⟩, ?_⟩
  rw [hc.nodeId_eq]
  refine (h.place c.nodeId e).note c.nodeId ?_ mono
  simp [Copy.hearing, Hearing.bearing, hc.nextHop_eq, hc.hops_eq, hc.rssi_eq]

theorem sharpen_congr (hc : SameRoute c c') (p : Option Settle) (now : ℚ) :
    sharpen p c' now = sharpen p c now := by
  cases p <;> simp only [sharpen, hc.nextHop_eq, hc.hops_eq, hc.rssi_eq]

/-- Both tables judge the copies alike. -/
theorem Twins.learn (h : Twins t u) (hc : SameRoute c c')
    (hx : t.learn c now mono = some (v, t')) :
    ∃ u', u.learn c' now mono = some (v, u') ∧ Twins t' u' := by
  have hcommit {w : LearnVerdict}
      (hw : ((t.dropPending c.nodeId).commit c now mono).map (fun t' => (w, t')) = some (v, t')) :
      ∃ u', ((u.dropPending c.nodeId).commit c' now mono).map (fun u' => (w, u')) =
        some (v, u') ∧ Twins t' u' := by
    obtain ⟨t₁, ht₁, heq⟩ := Option.map_eq_some_iff.mp hw
    obtain ⟨rfl, rfl⟩ := Prod.mk.inj heq
    obtain ⟨u₁, hu₁, htwins⟩ := (h.dropPending c.nodeId).commit hc ht₁
    exact ⟨u₁, by rw [hu₁, Option.map_some], htwins⟩
  have hheard (old : Packed) : (old.heard c' now).bearing = (old.heard c now).bearing := rfl
  rw [RouteTable.learn] at hx ⊢
  rw [h.ownId_eq, h.hot_eq, hc.nodeId_eq, hc.hops_eq, hc.nextHop_eq, hc.rssi_eq]
  by_cases hown : t.ownId = some c.nodeId
  · rw [if_pos hown] at hx ⊢
    obtain ⟨rfl, rfl⟩ := Prod.mk.inj (Option.some.inj hx)
    exact ⟨u, rfl, h⟩
  rw [if_neg hown] at hx ⊢
  cases hhot : t.hot.get? c.nodeId with
  | none =>
    simp only [hhot] at hx ⊢
    exact hcommit hx
  | some old =>
    simp only [hhot] at hx ⊢
    split_ifs at hx ⊢ with hle hlt hhop hguard hlate
    · exact hcommit hx
    · exact hcommit hx
    · obtain ⟨rfl, rfl⟩ := Prod.mk.inj (Option.some.inj hx)
      exact ⟨_, rfl, (h.dropPending c.nodeId).note c.nodeId (hheard old) mono⟩
    · exact hcommit hx
    · obtain ⟨rfl, rfl⟩ := Prod.mk.inj (Option.some.inj hx)
      refine ⟨_, rfl, Twins.note ?_ c.nodeId (hheard old) mono⟩
      rw [h.pending_eq, sharpen_congr hc]
      exact { h.withPending _ with hot_eq := rfl, ownId_eq := rfl }
    · obtain ⟨rfl, rfl⟩ := Prod.mk.inj (Option.some.inj hx)
      exact ⟨_, rfl, h.note c.nodeId (hheard old) mono⟩

theorem Twins.settle (h : Twins t u) (hx : t.settle now mono = some t') :
    ∃ u', u.settle now mono = some u' ∧ Twins t' u' := by
  rw [RouteTable.settle] at hx ⊢
  rw [h.pending_eq]
  refine foldlM_forward (fun {t₁ u₁ e t₂} htu hone => ?_) h hx
  exact (htu.dropPending e.1).commit (.refl _) hone

theorem Twins.tick (h : Twins t u) {clk : TickClock} (hx : t.tick clk = some t') :
    ∃ u', u.tick clk = some u' ∧ Twins t' u' := by
  obtain ⟨t₁, ht₁, rfl⟩ := Option.map_eq_some_iff.mp hx
  obtain ⟨u₁, hu₁, htwins⟩ := h.settle ht₁
  exact ⟨_, by rw [RouteTable.tick, hu₁, Option.map_some],
    htwins.mapCold fun _ _ hsd => hsd.maybeFlush clk.check clk.done⟩

theorem Twins.expire (h : Twins t u) (now nowCold : ℚ) :
    Twins (t.expire now nowCold).2 (u.expire now nowCold).2 := by
  have hcold := h.mapCold fun _ _ hsd => hsd.expire t.ttl nowCold
  refine ⟨h.ownId_eq, h.ttl_eq, h.maxHot_eq, ?_, h.pending_eq, ?_⟩
  · simp only [RouteTable.expire, h.hot_eq, h.ttl_eq]
  · simpa only [RouteTable.expire, h.ttl_eq] using hcold.cold

/-- Every look-up finds the same next hop and hop count. -/
def SameRoutes (t u : RouteTable) : Prop :=
  ∀ n full, (u.get n full).map (fun r => (r.nextHop, r.hops)) =
    (t.get n full).map (fun r => (r.nextHop, r.hops))

theorem Twins.recorded_bearing (h : Twins t u) (n : NodeId) :
    (u.recorded n).map Route.bearing = (t.recorded n).map Route.bearing := by
  rw [← stored_eq_map, ← stored_eq_map, stored, stored]
  have hcold := h.cold
  generalize t.cold = a, u.cold = b at hcold ⊢
  cases hcold with
  | none => rfl
  | some hsd => exact hsd.bearing?_eq n

theorem Twins.sameRoutes (h : Twins t u) : SameRoutes t u := by
  intro n full
  have hview {r q : Option Route} (hrq : q.map Route.bearing = r.map Route.bearing) :
      q.map (fun r => (r.nextHop, r.hops)) = r.map (fun r => (r.nextHop, r.hops)) := by
    have hmap := congrArg (Option.map fun b : Bearing => (b.nextHop, b.hops)) hrq
    rwa [Option.map_map, Option.map_map] at hmap
  apply hview
  have hrec := h.recorded_bearing n
  cases full with
  | false =>
    rw [get_held, get_held, h.hot_eq]
    cases (t.hot.get? n).map (ofPacked n) with
    | none => simpa using hrec
    | some r => rfl
  | true =>
    rw [get_full, get_full, h.hot_eq]
    cases ht : t.recorded n with
    | none =>
      rw [ht] at hrec
      rw [Option.map_eq_none_iff.mp hrec]
    | some r =>
      rw [ht] at hrec
      obtain ⟨q, hu, hq⟩ := Option.map_eq_some_iff.mp hrec
      rw [hu, Option.some_or, Option.some_or, Option.map_some, Option.map_some, hq]

end RouteTable

/-! ### Runs side by side -/

/-- Every announce of the operation verifies. -/
def Node.Op.Verifies (c : Crypto) : Node.Op → Prop
  | .frame data _ _ => ∀ pkt, Packet.fromBytes data = .ok pkt → pkt.type = typeAnnounce →
      ∃ info, parseAnnounce c pkt.src pkt.payload = .ok info
  | _ => True

/-- An announce of another node has come the same number of hops by the limit of the
node and by the default. -/
def Node.Op.SameDistance (hopLimit : ℤ) (own : Option NodeId) : Node.Op → Prop
  | .frame data _ _ => ∀ pkt, Packet.fromBytes data = .ok pkt → pkt.type = typeAnnounce →
      own ≠ some pkt.src → (hopLimit - pkt.hopLimit).toNat = (defaultHopLimit - pkt.hopLimit).toNat
  | _ => True

/-- Both counts agree if the limits do, or if the packet has come no hop by either. -/
theorem sameDistance_frame_iff {hopLimit : ℤ} {own : Option NodeId} {data : Bytes} {m : FrameMeta}
    {clk : HandleClock} : (Node.Op.frame data m clk).SameDistance hopLimit own ↔
      ∀ pkt, Packet.fromBytes data = .ok pkt → pkt.type = typeAnnounce → own ≠ some pkt.src →
        hopLimit = defaultHopLimit ∨ max hopLimit defaultHopLimit ≤ pkt.hopLimit := by
  rw [Node.Op.SameDistance]
  refine forall₄_congr fun pkt _ _ _ => ?_
  omega

/-- A node and the table of a monitor that has seen the same. -/
structure Beside (hopLimit : ℤ) (own : Option NodeId) (n : Node) (t : RouteTable) : Prop where
  routes : n.routes.Twins t
  ownId_eq : n.routes.ownId = own
  flooder_eq : n.flooder.ownId = own
  limit_eq : n.hopLimit = hopLimit

variable {c : Crypto} {hopLimit : ℤ} {own : Option NodeId} {n n' : Node} {t : RouteTable}

/-- A verified announce of another node teaches both the same route. -/
theorem Beside.learn (h : Beside hopLimit own n t) {pkt : Packet} {m : FrameMeta}
    {info? : Option AnnounceInfo} {info : AnnounceInfo} {clk : HandleClock} {w : LearnVerdict}
    {u : RouteTable} (hdist : (hopLimit - pkt.hopLimit).toNat =
      (defaultHopLimit - pkt.hopLimit).toNat)
    (hx : n.routes.learn (n.copyOf pkt m info?) clk.now clk.mono = some (w, u)) :
    ∃ t', t.learn (Monitor.copyOf pkt m info) clk.now clk.mono = some (w, t') ∧ u.Twins t' := by
  have hhops : (Monitor.copyOf pkt m info).hops = (n.copyOf pkt m info?).hops := by
    change (defaultHopLimit - pkt.hopLimit).toNat = (n.hopLimit - pkt.hopLimit).toNat
    rw [h.limit_eq, hdist]
  have hsame : RouteTable.SameRoute (n.copyOf pkt m info?) (Monitor.copyOf pkt m info) :=
    ⟨rfl, rfl, hhops, rfl⟩
  exact h.routes.learn hsame hx

/-- A verified announce is learned. -/
theorem Monitor.frame_of_info {data : Bytes} {pkt : Packet} (hp : Packet.fromBytes data = .ok pkt)
    (htype : pkt.type = typeAnnounce) {info : AnnounceInfo}
    (hinfo : parseAnnounce c pkt.src pkt.payload = .ok info) (t : RouteTable) (m : FrameMeta)
    (clk : HandleClock) : Monitor.frame c t data m clk =
      (t.learn (copyOf pkt m info) clk.now clk.mono).map fun r => (r.2, some r.1) := by
  simp only [Monitor.frame, hp, hinfo, htype, ne_eq, not_true_eq_false, if_false]

theorem Beside.frame (h : Beside hopLimit own n t) {data : Bytes} {m : FrameMeta}
    {clk : HandleClock} {es : List Event} (hver : (Node.Op.frame data m clk).Verifies c)
    (hdist : (Node.Op.frame data m clk).SameDistance hopLimit own)
    (hx : n.handle c data m clk = some (n', es)) :
    ∃ t' o, Monitor.frame c t data m clk = some (t', o) ∧ n'.routes.Twins t' := by
  cases Node.handle_cases hx with
  | garbled e he => exact ⟨t, none, by simp only [Monitor.frame, he], h.routes⟩
  | packet pkt v f hp htype _ =>
    exact ⟨t, none, by simp only [Monitor.frame, hp, if_pos htype], h.routes⟩
  | rejected pkt v f e hp htype _ _ hbad =>
    obtain ⟨info, hinfo⟩ := hver pkt hp htype
    cases hbad.symm.trans hinfo
  | verified pkt v f info w u hp htype hrec hfirst hinfo hl =>
    have hown : own ≠ some pkt.src := h.flooder_eq ▸ (Flooder.isFirst_iff hrec).mp hfirst |>.1
    obtain ⟨t', ht', htwins⟩ :
        ∃ t', t.learn (Monitor.copyOf pkt m info) clk.now clk.mono = some (w, t') ∧ u.Twins t' :=
      h.learn (hdist pkt hp htype hown) hl
    refine ⟨t', some w, ?_, htwins⟩
    rw [Monitor.frame_of_info hp htype hinfo, ht', Option.map_some]
  | own pkt f hp htype hrec =>
    obtain ⟨info, hinfo⟩ := hver pkt hp htype
    have hown : t.ownId = some pkt.src := by
      rw [h.routes.ownId_eq, h.ownId_eq, ← h.flooder_eq]
      exact (Flooder.own_iff hrec).mp rfl
    have hself : t.learn (Monitor.copyOf pkt m info) clk.now clk.mono = some (.self, t) := by
      rw [RouteTable.learn]
      exact if_pos hown
    refine ⟨t, some .self, ?_, h.routes⟩
    rw [Monitor.frame_of_info hp htype hinfo, hself, Option.map_some]
  | copy pkt v f w u hp htype hrec _ hnot hl =>
    obtain ⟨info, hinfo⟩ := hver pkt hp htype
    have hown : own ≠ some pkt.src := fun heq =>
      hnot ((Flooder.own_iff hrec).mpr (h.flooder_eq.trans heq))
    obtain ⟨t', ht', htwins⟩ :
        ∃ t', t.learn (Monitor.copyOf pkt m info) clk.now clk.mono = some (w, t') ∧ u.Twins t' :=
      h.learn (hdist pkt hp htype hown) hl
    refine ⟨t', some w, ?_, htwins⟩
    rw [Monitor.frame_of_info hp htype hinfo, ht', Option.map_some]

theorem ownId_after (f : Flooder) (id : NodeId) (op : FloodOp) :
    (f.after id op).ownId = f.ownId := by
  cases op with
  | receive pkt rssi clk draw => exact Flooder.ownId_onReceive rfl
  | due now => rfl
  | announce packetId now => rfl

theorem ownId_step {op : Node.Op} {es : List Event} (hx : n.step c op = some (n', es)) :
    n'.flooder.ownId = n.flooder.ownId := by
  rw [Node.flooder_step hx]
  cases op.flood? with
  | none => rfl
  | some fop => exact ownId_after n.flooder n.identity.nodeId fop

/-- One step of the daemon, and the monitor beside it. -/
theorem Beside.step (h : Beside hopLimit own n t) {op : Node.Op} {es : List Event}
    (hop : op.onAir = true) (hver : op.Verifies c) (hdist : op.SameDistance hopLimit own)
    (hx : n.step c op = some (n', es)) :
    ∃ t' o, Monitor.step c t op = some (t', o) ∧ Beside hopLimit own n' t' := by
  have hbeside {t' : RouteTable} (ht : n'.routes.Twins t') : Beside hopLimit own n' t' :=
    ⟨ht, (Node.routes_config_step hx).ownId_eq.trans h.ownId_eq,
      (ownId_step hx).trans h.flooder_eq, (Node.config_step hx).hopLimit_eq.trans h.limit_eq⟩
  cases op with
  | frame data m clk =>
    obtain ⟨t', o, ht, htwins⟩ := h.frame hver hdist hx
    exact ⟨t', o, ht, hbeside htwins⟩
  | relay now sends =>
    cases Node.step_cases hx with
    | relay done hr => exact ⟨t, none, rfl, hbeside ((Node.edge_relayDue hr).routes_eq ▸ h.routes)⟩
  | announce d ok =>
    cases Node.step_cases hx with
    | announce done ha =>
      exact ⟨t, none, rfl, hbeside ((Node.edge_announceStep ha).routes_eq ▸ h.routes)⟩
  | tick clk =>
    cases Node.step_cases hx with
    | tick u hu =>
      obtain ⟨t', ht, htwins⟩ := h.routes.tick hu
      exact ⟨t', none, by rw [Monitor.step, ht]; rfl, hbeside htwins⟩
  | expire mono now nowCold =>
    cases Node.step_cases hx with
    | expire => exact ⟨_, none, rfl, hbeside (h.routes.expire now nowCold)⟩
  | flush mono => cases hop
  | nextHop m => cases hop
  | warm limit => cases hop

theorem RouteTable.SameRoutes.hops_eq {u u' : RouteTable} (h : u.SameRoutes u') (id : NodeId) :
    (u'.get id false).map Route.hops = (u.get id false).map Route.hops := by
  have hhops := congrArg (Option.map Prod.snd) (h id false)
  rwa [Option.map_map, Option.map_map] at hhops

/-- What a table says of a node it hears for the first time. -/
theorem hops_of_learn_new {u u' : RouteTable} {x : Copy} {now mono : ℚ} {v : LearnVerdict}
    (hroom : 0 < u.maxHot) (hown : u.ownId ≠ some x.nodeId) (hnew : u.hot.get? x.nodeId = none)
    (hx : u.learn x now mono = some (v, u')) :
    (u'.get x.nodeId false).map Route.hops = some x.hops := by
  rcases RouteTable.learn_replaces_or_stands hx hown with ⟨-, hcommit⟩ | ⟨old, hold, -⟩
  · obtain ⟨e, he, rfl⟩ := RouteTable.commit_eq_some_iff.mp hcommit
    have hheld : ((u.dropPending x.nodeId).place x.nodeId e).hot.get? x.nodeId = some e :=
      RouteTable.get?_place_self hroom x.nodeId e
    rw [RouteTable.get_held, RouteTable.note, hheld]
    exact congrArg some (pack_eq_some_iff.mp he).2.1
  · rw [hnew] at hold
    cases hold

section FirstAnnounce

variable {data : Bytes} {m : FrameMeta} {clk : HandleClock} {pkt : Packet} {info : AnnounceInfo}
  (hpkt : Packet.fromBytes data = .ok pkt) (htype : pkt.type = typeAnnounce)
  (hinfo : parseAnnounce c pkt.src pkt.payload = .ok info)
include hpkt htype hinfo

/-- What a node says of another one whose announce it hears first. -/
theorem Node.hops_of_handle {es : List Event} (hroom : 0 < n.routes.maxHot)
    (hown : n.routes.ownId ≠ some pkt.src) (hflooder : n.flooder.ownId ≠ some pkt.src)
    (hnew : n.routes.hot.get? pkt.src = none) (hx : n.handle c data m clk = some (n', es)) :
    (n'.routes.get pkt.src false).map Route.hops = some (n.hopLimit - pkt.hopLimit).toNat := by
  have hsame {q : Packet} (hq : Packet.fromBytes data = .ok q) : q = pkt :=
    Except.ok.inj (hq.symm.trans hpkt)
  cases Node.handle_cases hx with
  | garbled e he => cases hpkt.symm.trans he
  | packet q v f hq hother _ => exact absurd htype (hsame hq ▸ hother)
  | rejected q v f e hq _ _ _ hbad =>
    obtain rfl := hsame hq
    cases hbad.symm.trans hinfo
  | verified q v f _ w u hq _ _ _ _ hl =>
    obtain rfl := hsame hq
    -- matched against the goal at once, the hops would be unfolded to find the copy
    have hfirst := hops_of_learn_new hroom hown hnew hl
    exact hfirst
  | own q f hq _ hrec =>
    obtain rfl := hsame hq
    exact absurd ((Flooder.own_iff hrec).mp rfl) hflooder
  | copy q v f w u hq _ _ _ _ hl =>
    obtain rfl := hsame hq
    have hfirst := hops_of_learn_new hroom hown hnew hl
    exact hfirst

/-- What a monitor says of it. -/
theorem Monitor.hops_of_frame {t' : RouteTable} {o : Option LearnVerdict} (hroom : 0 < t.maxHot)
    (hown : t.ownId ≠ some pkt.src) (hnew : t.hot.get? pkt.src = none)
    (hy : Monitor.frame c t data m clk = some (t', o)) :
    (t'.get pkt.src false).map Route.hops = some (defaultHopLimit - pkt.hopLimit).toNat := by
  rw [Monitor.frame_of_info hpkt htype hinfo] at hy
  obtain ⟨⟨w, u⟩, hl, heq⟩ := Option.map_eq_some_iff.mp hy
  obtain ⟨rfl, rfl⟩ := Prod.mk.inj heq
  have hfirst := hops_of_learn_new hroom hown hnew hl
  exact hfirst

/-- The condition is needed: an announce at two distances, of a node not held, leaves two
tables that differ. -/
theorem Beside.not_sameRoutes (h : Beside hopLimit own n t) {es : List Event} {t' : RouteTable}
    {o : Option LearnVerdict} (hroom : 0 < n.routes.maxHot) (hown : own ≠ some pkt.src)
    (hnew : n.routes.hot.get? pkt.src = none)
    (hdist : (hopLimit - pkt.hopLimit).toNat ≠ (defaultHopLimit - pkt.hopLimit).toNat)
    (hx : n.handle c data m clk = some (n', es))
    (hy : Monitor.frame c t data m clk = some (t', o)) : ¬ n'.routes.SameRoutes t' := by
  have hnode := Node.hops_of_handle hpkt htype hinfo hroom (h.ownId_eq ▸ hown)
    (h.flooder_eq ▸ hown) hnew hx
  have howner : t.ownId ≠ some pkt.src := by
    rw [h.routes.ownId_eq, h.ownId_eq]
    exact hown
  have hmonitor := Monitor.hops_of_frame hpkt htype hinfo (h.routes.maxHot_eq ▸ hroom) howner
    (h.routes.hot_eq ▸ hnew) hy
  intro hsame
  have hhops := hsame.hops_eq pkt.src
  rw [hmonitor, hnode, h.limit_eq] at hhops
  exact hdist (Option.some.inj hhops).symm

end FirstAnnounce

/-- The one frame of the sample run verifies. -/
theorem heardRun_verifies : ∀ op ∈ heardRun, op.Verifies sampleCrypto := by
  intro op hop
  obtain rfl := List.mem_singleton.mp hop
  intro pkt hpkt _
  obtain rfl := Except.ok.inj (fromBytes_sampleAnnounce.symm.trans hpkt)
  exact ⟨⟨sampleNode, samplePub, sampleEncryptPub, [0x78]⟩, by decide +kernel⟩

/-- For every run of a daemon whose announces all verify, and a monitor that starts from
the same table and meets the same frames and times: if each announce of another node
has come the same number of hops by both limits, the tables agree in every state. -/
theorem monitor_learns_same_routes (c : Crypto) (n : Node) (ops : List Node.Op)
    (hown : n.flooder.ownId = n.routes.ownId) (hop : ∀ op ∈ ops, op.onAir = true)
    (hver : ∀ op ∈ ops, op.Verifies c)
    (hdist : ∀ op ∈ ops, op.SameDistance n.hopLimit n.routes.ownId) :
    ∀ pre post n' ess, ops = pre ++ post → exec (Node.step c) n pre = some (n', ess) →
      ∃ t os, exec (Monitor.step c) n.routes pre = some (t, os) ∧ n'.routes.SameRoutes t := by
  rintro pre post n' ess rfl hx
  have hmem {op : Node.Op} (h : op ∈ pre) : op ∈ pre ++ post := List.mem_append_left post h
  obtain ⟨t, os, ht, hbeside⟩ : ∃ t os, exec (Monitor.step c) n.routes pre = some (t, os) ∧
      Beside n.hopLimit n.routes.ownId n' t :=
    exec_forward
      (fun hin hR hone => hR.step (hop _ (hmem hin)) (hver _ (hmem hin)) (hdist _ (hmem hin)) hone)
      ⟨.refl n.routes, rfl, hown, rfl⟩ hx
  exact ⟨t, os, ht, hbeside.routes.sameRoutes⟩

theorem monitor_learns_sampleAnnounce : ∃ n ess t os,
    exec (Node.step sampleCrypto) Node.sampleStart heardRun = some (n, ess) ∧
    exec (Monitor.step sampleCrypto) Node.sampleStart.routes heardRun = some (t, os) ∧
    n.routes.SameRoutes t := by
  have hrun : (exec (Node.step sampleCrypto) Node.sampleStart heardRun).isSome := by
    decide +kernel
  obtain ⟨⟨n, ess⟩, hx⟩ := Option.isSome_iff_exists.mp hrun
  have hdist : ∀ op ∈ heardRun,
      op.SameDistance Node.sampleStart.hopLimit Node.sampleStart.routes.ownId := by
    intro op hop
    obtain rfl := List.mem_singleton.mp hop
    intro pkt _ _ _
    rfl
  obtain ⟨t, os, ht, hsame⟩ := monitor_learns_same_routes sampleCrypto Node.sampleStart heardRun rfl
    (by decide) heardRun_verifies hdist heardRun [] n ess (List.append_nil _).symm hx
  exact ⟨n, ess, t, os, hx, ht, hsame⟩

/-- Under a mesh-wide limit of 64 the announce has come 61 hops, and none for the monitor. -/
theorem monitor_learns_other_hops : ∃ n ess t os,
    exec (Node.step sampleCrypto) { Node.sampleStart with hopLimit := 64 } heardRun =
      some (n, ess) ∧
    exec (Monitor.step sampleCrypto) Node.sampleStart.routes heardRun = some (t, os) ∧
    (∀ op ∈ heardRun, op.onAir = true ∧ op.Verifies sampleCrypto) ∧
    (n.routes.get sampleNode false).map Route.hops = some 61 ∧
    (t.get sampleNode false).map Route.hops = some 0 ∧ ¬ n.routes.SameRoutes t := by
  have hnode : (exec (Node.step sampleCrypto) { Node.sampleStart with hopLimit := 64 }
      heardRun).map (fun r => (r.1.routes.get sampleNode false).map Route.hops) =
        some (some 61) := by
    decide +kernel
  have hmonitor : (exec (Monitor.step sampleCrypto) Node.sampleStart.routes heardRun).map
      (fun r => (r.1.get sampleNode false).map Route.hops) = some (some 0) := by
    decide +kernel
  obtain ⟨⟨n, ess⟩, hx, hn⟩ := Option.map_eq_some_iff.mp hnode
  obtain ⟨⟨t, os⟩, hy, ht⟩ := Option.map_eq_some_iff.mp hmonitor
  refine ⟨n, ess, t, os, hx, hy, fun op hop => ⟨?_, heardRun_verifies op hop⟩, hn, ht, ?_⟩
  · obtain rfl := List.mem_singleton.mp hop
    rfl
  · intro hsame
    have hhops := hsame.hops_eq sampleNode
    rw [ht, hn] at hhops
    cases hhops

end Beachedmesh
