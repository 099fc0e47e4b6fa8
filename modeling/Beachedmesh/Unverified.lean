import Beachedmesh.Node

/-!
# Announces that do not verify

`_handle` verifies an announce only when the flooder takes its key up for the
first time. A copy of a known key is learned from unverified, so an announce that
does not verify writes the records whenever its key is pending or still live in
the cache, unless what it would write is there already.
-/
namespace Beachedmesh
open Machine

/-! ### Bounds that every node keeps -/

theorem ColdStore.size_buf_buffer (s : ColdStore) (n : NodeId) (h : Hearing) (mono : ℚ) :
    (s.buffer n h mono).buf.size < flushEntries := by
  rw [buffer_eq]
  split_ifs with hsize
  · rw [buf_flush]
    decide
  · exact not_le.mp hsize

namespace RouteTable

/-- Whose table it is, and that neither tier outgrows its limit. -/
structure Bounded (own : NodeId) (t : RouteTable) : Prop where
  own_eq : t.ownId = some own
  room : 0 < t.maxHot
  size_le : t.hot.size ≤ t.maxHot
  buf_lt : ∀ s, t.cold = some s → s.buf.size < flushEntries

variable {own : NodeId} {t t' : RouteTable}

theorem Bounded.place (h : t.Bounded own) (n : NodeId) (e : Packed) : (t.place n e).Bounded own :=
  { h with size_le := OrderedDict.size_evict_le _ _ }

theorem Bounded.note (h : t.Bounded own) (n : NodeId) (x : Hearing) (mono : ℚ) :
    (t.note n x mono).Bounded own :=
  { h with
    buf_lt := by
      intro s hs
      obtain ⟨u, -, rfl⟩ := Option.map_eq_some_iff.mp hs
      exact u.size_buf_buffer n x mono }

theorem Bounded.commit (h : t.Bounded own) {c : Copy} {now mono : ℚ}
    (hx : t.commit c now mono = some t') : t'.Bounded own := by
  obtain ⟨e, -, rfl⟩ := commit_eq_some_iff.mp hx
  exact (h.place c.nodeId e).note _ _ _

theorem Bounded.learn (h : t.Bounded own) {c : Copy} {now mono : ℚ} {v : LearnVerdict}
    (hx : t.learn c now mono = some (v, t')) : t'.Bounded own := by
  cases learn_cases hx with
  | self _ => exact h
  | committed v t' _ _ hcommit =>
    exact Bounded.commit (t := t.dropPending c.nodeId) { h with } hcommit
  | keptEqual old _ _ _ _ _ _ =>
    exact Bounded.note (t := t.dropPending c.nodeId) { h with } _ _ _
  | settling old _ _ _ _ =>
    exact Bounded.note (t := { t with pending := t.sharpened c now }) { h with } _ _ _
  | keptWorse old _ _ _ _ => exact h.note _ _ _

theorem Bounded.mapCold (h : t.Bounded own) {f : ColdStore → ColdStore}
    (hf : ∀ s, s.buf.size < flushEntries → (f s).buf.size < flushEntries) :
    Bounded own { t with cold := t.cold.map f } :=
  { h with
    buf_lt := by
      intro s hs
      obtain ⟨u, hu, rfl⟩ := Option.map_eq_some_iff.mp hs
      exact hf u (h.buf_lt u hu) }

theorem size_buf_flush (s : ColdStore) (mono : ℚ) : (s.flush mono).buf.size < flushEntries := by
  rw [ColdStore.buf_flush]
  decide

theorem Bounded.tick (h : t.Bounded own) {clk : TickClock} (hx : t.tick clk = some t') :
    t'.Bounded own := by
  obtain ⟨u, hu, rfl⟩ := Option.map_eq_some_iff.mp hx
  have hsettle : u.Bounded own := by
    refine foldlM_invariant (Bounded own) (fun {s e s'} _ hs hone => ?_) h hu
    exact Bounded.commit (t := s.dropPending e.1) { hs with } hone
  refine hsettle.mapCold fun s hs => ?_
  unfold ColdStore.maybeFlush
  split_ifs
  · exact size_buf_flush s clk.done
  · exact hs

theorem size_reinsert_of_get? {d : OrderedDict NodeId Packed} {n : NodeId} {e : Packed}
    (h : d.get? n = some e) : (d.reinsert n e).size = d.size := by
  have hm := OrderedDict.size_moveToEnd d n
  rwa [OrderedDict.moveToEnd, h] at hm

theorem Bounded.nextHop (h : t.Bounded own) {n : NodeId} {a : Option Mac}
    (hx : t.nextHop n = some (a, t')) : t'.Bounded own := by
  cases nextHop_cases hx with
  | hit e he => exact { h with size_le := (size_reinsert_of_get? he).trans_le h.size_le }
  | cold r t' _ _ hput =>
    obtain ⟨e, -, rfl⟩ := putHot_eq_some_iff.mp hput
    exact h.place n e
  | miss _ _ => exact h

theorem Bounded.expire (h : t.Bounded own) (now nowCold : ℚ) :
    (t.expire now nowCold).2.Bounded own := by
  have hcold := h.mapCold (f := fun s => s.expire t.ttl nowCold) fun s hs => hs
  exact { hcold with size_le := (List.length_filter_le _ _).trans h.size_le }

theorem Bounded.warm (h : t.Bounded own) {limit : Option ℕ} (hx : t.warm limit = some t') :
    t'.Bounded own := by
  unfold RouteTable.warm at hx
  cases hs : t.cold with
  | none =>
    simp only [hs] at hx
    exact Option.some.inj hx ▸ h
  | some s =>
    simp only [hs] at hx
    refine foldlM_invariant (Bounded own) (fun {u e u'} _ hu hput => ?_) h hx
    obtain ⟨x, -, rfl⟩ := putHot_eq_some_iff.mp hput
    exact hu.place e.1 x

end RouteTable

namespace Node

/-- The flooder and the routes know whose they are, and the routes keep their bounds. -/
structure Sound (n : Node) : Prop where
  flooder_own : n.flooder.ownId = some n.identity.nodeId
  routes : n.routes.Bounded n.identity.nodeId

/-- A node as the daemon builds it, with or without a database. -/
theorem sound_new (iface : String) (identity : Identity) (interval : ℚ) (name : String)
    (db : Option (OrderedDict NodeId Row)) (mono₀ : ℚ) (hopLimit : ℤ) (mono started : ℚ) :
    (Node.new iface identity interval name (db.map fun rows => ColdStore.new rows mono₀) hopLimit
      mono started).Sound where
  flooder_own := rfl
  routes :=
    { own_eq := rfl
      room := by
        show 0 < maxHotRoutes
        decide
      size_le := Nat.zero_le _
      buf_lt := by
        intro s hs
        obtain ⟨rows, -, rfl⟩ := Option.map_eq_some_iff.mp hs
        show 0 < flushEntries
        decide }

theorem Sound.handle {c : Crypto} {n n' : Node} (h : n.Sound) {data : Bytes} {m : FrameMeta}
    {clk : HandleClock} {es : List Event} (hx : n.handle c data m clk = some (n', es)) :
    n'.Sound := by
  cases handle_cases hx with
  | garbled e _ => exact h
  | packet pkt v f _ _ hr => exact ⟨(Flooder.ownId_onReceive hr).trans h.flooder_own, h.routes⟩
  | rejected pkt v f e _ _ hr _ _ =>
    exact ⟨(Flooder.ownId_onReceive hr).trans h.flooder_own, h.routes⟩
  | verified pkt v f info w t _ _ hr _ _ hl =>
    exact ⟨(Flooder.ownId_onReceive hr).trans h.flooder_own, h.routes.learn hl⟩
  | own pkt f _ _ hr => exact ⟨(Flooder.ownId_onReceive hr).trans h.flooder_own, h.routes⟩
  | copy pkt v f w t _ _ hr _ _ hl =>
    exact ⟨(Flooder.ownId_onReceive hr).trans h.flooder_own, h.routes.learn hl⟩

theorem Sound.step {c : Crypto} {n n' : Node} (h : n.Sound) {op : Op} {es : List Event}
    (hx : n.step c op = some (n', es)) : n'.Sound := by
  have hedge {u : Node} (he : SameEdge n u) (hfl : u.flooder.ownId = n.flooder.ownId) :
      u.Sound := by
    refine ⟨?_, ?_⟩
    · rw [hfl, he.identity_eq]
      exact h.flooder_own
    · rw [he.routes_eq, he.identity_eq]
      exact h.routes
  cases step_cases hx with
  | frame _ => exact h.handle hx
  | relay done hr => exact hedge (edge_relayDue hr) (by rw [flooder_relayDue hr]; rfl)
  | @announce d ok _ _ done ha =>
    obtain rfl := announceStep_eq ha
    obtain ⟨he, hfl⟩ := edge_sendAnnounce n d ok
    exact hedge he (by rw [hfl]; rfl)
  | tick t ht => exact ⟨h.flooder_own, h.routes.tick ht⟩
  | flush mono =>
    exact ⟨h.flooder_own, h.routes.mapCold fun s _ => RouteTable.size_buf_flush s mono⟩
  | expire mono now nowCold => exact ⟨h.flooder_own, h.routes.expire now nowCold⟩
  | nextHop a t ht => exact ⟨h.flooder_own, h.routes.nextHop ht⟩
  | warm t ht => exact ⟨h.flooder_own, h.routes.warm ht⟩

theorem Sound.exec {c : Crypto} {n n' : Node} (h : n.Sound) {ops : List Op}
    {ess : List (List Event)} (hx : Machine.exec (Node.step c) n ops = some (n', ess)) : n'.Sound :=
  exec_invariant (P := fun _ => True) (fun hs _ hstep => Sound.step hs hstep) h (by simp) hx

end Node

/-! ### When a copy writes nothing new -/

namespace RouteTable

/-- The buffered hearing of the node already says `b`; without a store there is none to. -/
def Buffered (t : RouteTable) (n : NodeId) (b : Bearing) : Prop :=
  ∀ s, t.cold = some s → ∃ h, s.buf.get? n = some h ∧ h.bearing = b

/-- What a copy without keys would write is there already, down to the clock reading.
A copy that replaces the held route restates the entry, which is the youngest, and
finds nothing waiting; one that does not leaves the waiting candidate as it is. -/
def Restates (t : RouteTable) (c : Copy) (now : ℚ) : Prop :=
  ∃ old, t.hot.get? c.nodeId = some old ∧
    (old.Yields c now → old.nextHop = c.nextHop ∧ old.hops = c.hops ∧
      old.rssi = c.rssi.getD noRssi ∧ (old.lastSeen : ℤ) = pyInt now ∧
      t.hot.keys.getLast? = some c.nodeId ∧ c.nodeId ∉ t.pending.keys ∧
      t.Buffered c.nodeId ⟨c.nextHop, c.hops, c.rssi, now⟩) ∧
    (¬ old.Yields c now →
      (c.hops = old.hops → c.nodeId ∉ t.pending.keys) ∧
      (c.hops ≠ old.hops → floodGuard < now - old.lastSeen →
        sharpen (t.pending.get? c.nodeId) c now = none) ∧
      t.Buffered c.nodeId ⟨old.nextHop, old.hops, some old.rssi, now⟩)

/-- The four stores of the table. -/
def records (t : RouteTable) : OrderedDict NodeId Packed × OrderedDict NodeId Settle ×
    Option (OrderedDict NodeId Hearing × OrderedDict NodeId Row) :=
  (t.hot, t.pending, t.cold.map fun s => (s.buf, s.rows))

end RouteTable

/-- Buffering a hearing without keys changes nothing exactly when it restates the
buffered one. -/
theorem ColdStore.buffer_same_iff {s : ColdStore} (hs : s.buf.size < flushEntries) {n : NodeId}
    {h : Hearing} (hsign : h.signPub = none) (henc : h.encryptPub = none) (hname : h.name = "")
    (mono : ℚ) :
    ((s.buffer n h mono).buf = s.buf ∧ (s.buffer n h mono).rows = s.rows) ↔
      ∃ prev, s.buf.get? n = some prev ∧ prev.bearing = h.bearing := by
  cases hp : s.buf.get? n with
  | none =>
    -- a new hearing is in the buffer afterwards, or the buffer has been flushed
    have hmerge : s.merge n h = h := by rw [merge, hp]
    simp only [reduceCtorEq, false_and, exists_false, iff_false, not_and]
    intro hbuf
    rw [buffer_eq, hmerge] at hbuf
    split_ifs at hbuf with hsize
    · rw [buf_flush] at hbuf
      have hle := OrderedDict.size_insert_le s.buf n h
      rw [← hbuf, OrderedDict.size_empty, hbuf] at hle
      have hlt : (s.buf.insert n h).size < flushEntries := hle.trans_lt (by decide)
      exact absurd hsize (not_le.mpr hlt)
    · rw [OrderedDict.insert_eq_self_iff.mp hbuf] at hp
      cases hp
  | some prev =>
    have hmerge : s.merge n h = { prev with
        nextHop := h.nextHop, hops := h.hops, rssi := h.rssi, lastSeen := h.lastSeen } := by
      simp only [merge, hp, Hearing.over, hsign, henc, hname, orKey, orName, if_true]
    have hkeys := OrderedDict.keys_insert_of_mem (s.merge n h)
      (OrderedDict.mem_keys_iff.mpr ⟨prev, hp⟩)
    have hsize : (s.buf.insert n (s.merge n h)).size < flushEntries := by
      rwa [← OrderedDict.length_keys, hkeys, OrderedDict.length_keys]
    rw [buffer_eq, if_neg (not_le.mpr hsize)]
    simp only [and_true, Option.some.injEq, exists_eq_left', OrderedDict.insert_eq_self_iff, hp,
      hmerge]
    obtain ⟨nh, hops, rssi, seen, sp, ep, nm⟩ := prev
    simp [Hearing.bearing]

namespace RouteTable

theorem note_same_iff {own : NodeId} {t : RouteTable} (ht : t.Bounded own) {n : NodeId}
    {h : Hearing} (hsign : h.signPub = none) (henc : h.encryptPub = none) (hname : h.name = "")
    (mono : ℚ) :
    ((t.note n h mono).cold.map fun s => (s.buf, s.rows)) = (t.cold.map fun s => (s.buf, s.rows)) ↔
      t.Buffered n h.bearing := by
  unfold Buffered
  cases hs : t.cold with
  | none => simp [note, hs]
  | some s =>
    simp only [note, hs, Option.map_some, Option.some.injEq, Prod.mk.injEq, forall_eq']
    exact ColdStore.buffer_same_iff (ht.buf_lt s hs) hsign henc hname mono

/-- Placing an entry changes nothing exactly when it is there, as the youngest. -/
theorem place_same_iff {own : NodeId} {t : RouteTable} (ht : t.Bounded own) {n : NodeId}
    {e : Packed} :
    (t.place n e).hot = t.hot ↔ t.hot.get? n = some e ∧ t.hot.keys.getLast? = some n := by
  constructor
  · intro h
    have hget : t.hot.get? n = some e := by rw [← h, get?_place_self ht.room]
    have hsize : (t.hot.reinsert n e).size ≤ t.maxHot := by
      have hm := OrderedDict.size_moveToEnd t.hot n
      rw [OrderedDict.moveToEnd, hget] at hm
      exact hm.trans_le ht.size_le
    have hplace : (t.place n e).hot = t.hot.reinsert n e := OrderedDict.evict_of_size_le hsize
    exact OrderedDict.reinsert_eq_self_iff.mp (hplace ▸ h)
  · rintro ⟨hget, hlast⟩
    have hsame := OrderedDict.reinsert_eq_self_iff.mpr ⟨hget, hlast⟩
    show (t.hot.reinsert n e).evict t.maxHot = t.hot
    rw [hsame, OrderedDict.evict_of_size_le ht.size_le]

theorem sharpened_same_iff {t : RouteTable} {c : Copy} {now : ℚ} :
    t.sharpened c now = t.pending ↔ sharpen (t.pending.get? c.nodeId) c now = none := by
  unfold sharpened
  cases hq : sharpen (t.pending.get? c.nodeId) c now with
  | none => simp
  | some q =>
    simp only [reduceCtorEq, iff_false, OrderedDict.insert_eq_self_iff]
    exact sharpen_ne hq

theorem standing_same_iff {t : RouteTable} {c : Copy} {now : ℚ} {old : Packed} :
    t.standing c now old = t.pending ↔
      (c.hops = old.hops → c.nodeId ∉ t.pending.keys) ∧
      (c.hops ≠ old.hops → floodGuard < now - old.lastSeen →
        sharpen (t.pending.get? c.nodeId) c now = none) := by
  unfold standing
  split_ifs with heq hlate
  · simp [heq, OrderedDict.erase_eq_self_iff]
  · simp [heq, hlate, sharpened_same_iff]
  · simp [heq, hlate]

/-- A keyless copy leaves the records as they are exactly when it restates them. -/
theorem learn_same_iff {own : NodeId} {t t' : RouteTable} (ht : t.Bounded own) {c : Copy}
    {now mono : ℚ} {v : LearnVerdict} (hown : t.ownId ≠ some c.nodeId) (hsign : c.signPub = none)
    (henc : c.encryptPub = none) (hname : c.name = "")
    (hx : t.learn c now mono = some (v, t')) : t'.records = t.records ↔ t.Restates c now := by
  unfold Restates
  rcases learn_replaces_or_stands hx hown with ⟨hy, hcommit⟩ | ⟨old, hold, hy, rfl⟩
  · obtain ⟨e, he, rfl⟩ := commit_eq_some_iff.mp hcommit
    have hfields := pack_eq_some_iff.mp he
    have hhot : ((t.dropPending c.nodeId).place c.nodeId e).hot = t.hot ↔
        t.hot.get? c.nodeId = some e ∧ t.hot.keys.getLast? = some c.nodeId :=
      place_same_iff ht
    have hpend : (t.dropPending c.nodeId).pending = t.pending ↔ c.nodeId ∉ t.pending.keys :=
      OrderedDict.erase_eq_self_iff
    have hcold := note_same_iff (h := c.hearing now)
      (Bounded.place (t := t.dropPending c.nodeId) { ht with } c.nodeId e) hsign henc hname
      (n := c.nodeId) mono
    have hrec : (note ((t.dropPending c.nodeId).place c.nodeId e) c.nodeId (c.hearing now)
        mono).records = t.records ↔
        (t.hot.get? c.nodeId = some e ∧ t.hot.keys.getLast? = some c.nodeId) ∧
          c.nodeId ∉ t.pending.keys ∧ t.Buffered c.nodeId (c.hearing now).bearing := by
      rw [← hhot, ← hpend]
      simp only [records, Prod.mk.injEq]
      exact and_congr_right fun _ => and_congr_right fun _ => hcold
    rw [hrec]
    constructor
    · rintro ⟨⟨hget, hlast⟩, hnot, hbuf⟩
      refine ⟨e, hget, fun _ => ?_, fun hn => absurd (hy e hget) hn⟩
      exact ⟨hfields.1, hfields.2.1, hfields.2.2.1, hfields.2.2.2, hlast, hnot, hbuf⟩
    · rintro ⟨old, hold, hyes, -⟩
      obtain ⟨h₁, h₂, h₃, h₄, hlast, hnot, hbuf⟩ := hyes (hy old hold)
      have hpack := pack_eq_some_iff.mpr ⟨h₁, h₂, h₃, h₄⟩
      obtain rfl : e = old := Option.some.inj (he.symm.trans hpack)
      exact ⟨⟨hold, hlast⟩, hnot, hbuf⟩
  · have hcold := note_same_iff (h := old.heard c now) (n := c.nodeId)
      (t := { t with pending := t.standing c now old }) { ht with } hsign henc hname mono
    have hrec : (note { t with pending := t.standing c now old } c.nodeId (old.heard c now)
        mono).records = t.records ↔ t.standing c now old = t.pending ∧
          t.Buffered c.nodeId (old.heard c now).bearing := by
      simp only [records, Prod.mk.injEq]
      constructor
      · rintro ⟨-, hp, hc⟩
        exact ⟨hp, hcold.mp hc⟩
      · rintro ⟨hp, hb⟩
        exact ⟨rfl, hp, hcold.mpr hb⟩
    rw [hrec, standing_same_iff]
    constructor
    · rintro ⟨⟨h₁, h₂⟩, hbuf⟩
      exact ⟨old, hold, fun hyes => absurd hyes hy, fun _ => ⟨h₁, h₂, hbuf⟩⟩
    · rintro ⟨old', hold', -, hno⟩
      obtain rfl : old = old' := Option.some.inj (hold.symm.trans hold')
      obtain ⟨h₁, h₂, hbuf⟩ := hno hy
      exact ⟨⟨h₁, h₂⟩, hbuf⟩

end RouteTable

/-- In every state that a node reaches: an announce that does not verify leaves the
records unchanged exactly when it is the node's own, or its key is neither pending
nor live in the cache, or it restates what is recorded. -/
theorem unverified_harmless_iff (c : Crypto) (iface : String) (identity : Identity)
    (interval : ℚ) (name : String) (db : Option (OrderedDict NodeId Row)) (mono₀ : ℚ)
    (hopLimit : ℤ) (mono started : ℚ) {ops : List Node.Op} {n : Node}
    {ess : List (List Event)}
    (hx : exec (Node.step c) (Node.new iface identity interval name
      (db.map fun rows => ColdStore.new rows mono₀) hopLimit mono started) ops = some (n, ess))
    {data : Bytes} {pkt : Packet} (hpkt : Packet.fromBytes data = .ok pkt)
    (htype : pkt.type = typeAnnounce) {e : BadAnnounce}
    (hbad : parseAnnounce c pkt.src pkt.payload = .error e) {m : FrameMeta} {clk : HandleClock}
    {n' : Node} {es : List Event} (hh : n.handle c data m clk = some (n', es)) :
    n'.routes.records = n.routes.records ↔
      pkt.src = n.identity.nodeId ∨ ¬ n.flooder.Known pkt.key clk.receive.lookup ∨
        n.routes.Restates (n.copyOf pkt m none) clk.now := by
  have hs : n.Sound := (Node.sound_new iface identity interval name db mono₀ hopLimit mono
    started).exec hx
  have hfrom : n.flooder.ownId = some pkt.src ↔ pkt.src = n.identity.nodeId := by
    rw [hs.flooder_own, Option.some.injEq, eq_comm]
  cases Node.handle_cases hh with
  | garbled e' h => cases hpkt.symm.trans h
  | packet pkt' v f h hne _ =>
    obtain rfl := Except.ok.inj (hpkt.symm.trans h)
    exact absurd htype hne
  | rejected pkt' v f e' h _ hr hv _ =>
    obtain rfl := Except.ok.inj (hpkt.symm.trans h)
    exact iff_of_true rfl (Or.inr (Or.inl ((Flooder.isFirst_iff hr).mp hv).2))
  | verified pkt' v f info w t h _ _ _ hparse _ =>
    obtain rfl := Except.ok.inj (hpkt.symm.trans h)
    cases hbad.symm.trans hparse
  | own pkt' f h _ hr =>
    obtain rfl := Except.ok.inj (hpkt.symm.trans h)
    exact iff_of_true rfl (Or.inl (hfrom.mp ((Flooder.own_iff hr).mp rfl)))
  | copy pkt' v f w t h _ hr hv hown hl =>
    obtain rfl := Except.ok.inj (hpkt.symm.trans h)
    have hforeign : pkt.src ≠ n.identity.nodeId := fun he =>
      hown ((Flooder.own_iff hr).mpr (hfrom.mpr he))
    have hknown : n.flooder.Known pkt.key clk.receive.lookup := by
      by_contra hk
      exact hv ((Flooder.isFirst_iff hr).mpr ⟨fun he => hforeign (hfrom.mp he), hk⟩)
    have hroutes : n.routes.ownId ≠ some pkt.src := by
      rw [hs.routes.own_eq]
      exact fun he => hforeign (Option.some.inj he).symm
    have hsame := RouteTable.learn_same_iff (c := n.copyOf pkt m none) hs.routes hroutes rfl rfl
      rfl hl
    constructor
    · intro hrec
      exact Or.inr (Or.inr (hsame.mp hrec))
    · rintro (hself | hnew | hre)
      · exact absurd hself hforeign
      · exact absurd hknown hnew
      · exact hsame.mpr hre

/-- An announce whose key does not hash to the address it claims. -/
def forgedAnnounce : Packet :=
  ⟨nodeIdOf 7, broadcast, typeAnnounce, flagNoAck, 3, packetIdOf 1, List.replicate announceMin 0,
    version⟩

theorem forgedAnnounce_bad :
    parseAnnounce sampleCrypto forgedAnnounce.src forgedAnnounce.payload = .error .wrongKey := by
  decide +kernel

theorem fromBytes_forgedAnnounce :
    Packet.fromBytes forgedAnnounce.frame = .ok forgedAnnounce := by
  decide +kernel

/-- Two copies of it, over two neighbours. -/
def forgedTwice : List Node.Op :=
  [.frame forgedAnnounce.frame ⟨macOf 1, some (-60)⟩ (HandleClock.const 100),
    .frame forgedAnnounce.frame ⟨macOf 2, some (-60)⟩ (HandleClock.const 101)]

/-- Its third copy, at the time of the second, meets a key that is known, and changes nothing
since it says again what the second one wrote. -/
theorem unverified_harmless_again : ∃ n ess n' es,
    exec (Node.step sampleCrypto) Node.sampleStart forgedTwice = some (n, ess) ∧
    n.flooder.Known forgedAnnounce.key 101 ∧
    n.handle sampleCrypto forgedAnnounce.frame ⟨macOf 2, some (-60)⟩ (HandleClock.const 101) =
      some (n', es) ∧
    n'.routes.records = n.routes.records ∧
    n.routes.Restates (n.copyOf forgedAnnounce ⟨macOf 2, some (-60)⟩ none) 101 := by
  have hrun : ((exec (Node.step sampleCrypto) Node.sampleStart forgedTwice).bind fun x =>
      (x.1.handle sampleCrypto forgedAnnounce.frame ⟨macOf 2, some (-60)⟩
        (HandleClock.const 101)).map fun y =>
          (x.1.flooder.seen.d.get? forgedAnnounce.key, x.1.flooder.seen.ttl,
            decide (forgedAnnounce.src ≠ x.1.identity.nodeId ∧
              y.1.routes.hot = x.1.routes.hot ∧ y.1.routes.pending = x.1.routes.pending ∧
              y.1.routes.cold.map (fun s => (s.buf, s.rows)) =
                x.1.routes.cold.map (fun s => (s.buf, s.rows))))) = some (some 100, 600, true) := by
    decide +kernel
  obtain ⟨⟨n, ess⟩, hx, hrun⟩ := Option.bind_eq_some_iff.mp hrun
  obtain ⟨⟨n', es⟩, hh, hfacts⟩ := Option.map_eq_some_iff.mp hrun
  obtain ⟨hseen, httl, hdecided⟩ : _ = some (100 : ℚ) ∧ _ = (600 : ℚ) ∧ _ = true := by
    simpa only [Prod.mk.injEq] using hfacts
  obtain ⟨hforeign, hhot, hpending, hcold⟩ := of_decide_eq_true hdecided
  have hknown : n.flooder.Known forgedAnnounce.key 101 :=
    Or.inr ⟨100, hseen, by rw [httl]; norm_num⟩
  have hsame : n'.routes.records = n.routes.records :=
    Prod.ext hhot (Prod.ext hpending hcold)
  refine ⟨n, ess, n', es, hx, hknown, hh, hsame, ?_⟩
  obtain hown | hnew | hrestates := (unverified_harmless_iff sampleCrypto _ _ _ _
    (some OrderedDict.empty) 0 _ _ _ hx fromBytes_forgedAnnounce rfl forgedAnnounce_bad hh).mp hsame
  · exact absurd hown hforeign
  · exact absurd hknown hnew
  · exact hrestates

/-- Its second copy is taken for a copy of a verified announce and makes a route. -/
theorem unverified_copy_learned : ∃ n ess n' es,
    exec (Node.step sampleCrypto) Node.sampleStart
      [.frame forgedAnnounce.frame ⟨macOf 1, some (-60)⟩ (HandleClock.const 100)] =
        some (n, ess) ∧
    n.handle sampleCrypto forgedAnnounce.frame ⟨macOf 2, some (-60)⟩ (HandleClock.const 101) =
      some (n', es) ∧
    n.routes.hot.get? forgedAnnounce.src = none ∧
    (n'.routes.hot.get? forgedAnnounce.src).map Packed.nextHop = some (macOf 2) ∧
    n'.routes.records ≠ n.routes.records := by
  have hrun : ((exec (Node.step sampleCrypto) Node.sampleStart
      [.frame forgedAnnounce.frame ⟨macOf 1, some (-60)⟩ (HandleClock.const 100)]).bind fun x =>
        (x.1.handle sampleCrypto forgedAnnounce.frame ⟨macOf 2, some (-60)⟩
          (HandleClock.const 101)).map fun y =>
          (x.1.routes.hot.get? forgedAnnounce.src,
            (y.1.routes.hot.get? forgedAnnounce.src).map Packed.nextHop)) =
      some (none, some (macOf 2)) := by
    decide +kernel
  obtain ⟨⟨n, ess⟩, hx, hrun⟩ := Option.bind_eq_some_iff.mp hrun
  obtain ⟨⟨n', es⟩, hh, hrun⟩ := Option.map_eq_some_iff.mp hrun
  obtain ⟨hbefore, hafter⟩ := Prod.mk.inj hrun
  refine ⟨n, ess, n', es, hx, hh, hbefore, hafter, fun he => ?_⟩
  have hhot : n'.routes.hot = n.routes.hot := congrArg Prod.fst he
  rw [hhot, hbefore] at hafter
  cases hafter

end Beachedmesh
