import Beachedmesh.Node

/-!
# Where stored keys come from

Keys reach the store through merges: the buffer's `or`, the upsert's `COALESCE`
and `CASE`, and commits without keys. Each merge takes a whole pair from one
side, because an accepted announce carries two keys and neither is empty. So a
stored pair is the pair of one accepted announce, whatever else was received.
-/
namespace Beachedmesh
open Machine

/-! ### Merging pairs -/

/-- Both keys come from one source, or there are none; the name has its own source. -/
structure Sourced (K : Bytes → Bytes → Prop) (N : String → Prop) (signPub encryptPub : Option Bytes)
    (name : String) : Prop where
  keys : signPub = none ∧ encryptPub = none ∨
    ∃ s e, signPub = some s ∧ encryptPub = some e ∧ s ≠ [] ∧ e ≠ [] ∧ K s e
  named : name = "" ∨ N name

section Merge

variable {K : Bytes → Bytes → Prop} {N : String → Prop}

theorem Sourced.mono {K' : Bytes → Bytes → Prop} {N' : String → Prop} {s e : Option Bytes}
    {name : String} (h : Sourced K N s e name) (hK : ∀ s e, K s e → K' s e)
    (hN : ∀ x, N x → N' x) : Sourced K' N' s e name := by
  refine ⟨?_, h.named.imp_right (hN name)⟩
  rcases h.keys with hnone | ⟨s, e, hs, he, hs', he', hk⟩
  · exact Or.inl hnone
  · exact Or.inr ⟨s, e, hs, he, hs', he', hK s e hk⟩

/-- A copy that was not verified brings neither keys nor a name. -/
theorem sourced_none : Sourced K N none none "" := ⟨Or.inl ⟨rfl, rfl⟩, Or.inl rfl⟩

theorem Sourced.orName {a b : String} (ha : a = "" ∨ N a) (hb : b = "" ∨ N b) :
    orName a b = "" ∨ N (orName a b) := by
  unfold Beachedmesh.orName
  split_ifs with h
  · exact hb
  · exact ha

/-- The merge of the buffer keeps pairs whole. -/
theorem Sourced.over {h prev : Hearing} (hh : Sourced K N h.signPub h.encryptPub h.name)
    (hp : Sourced K N prev.signPub prev.encryptPub prev.name) :
    Sourced K N (h.over prev).signPub (h.over prev).encryptPub (h.over prev).name := by
  refine ⟨?_, Sourced.orName hh.named hp.named⟩
  rcases hh.keys with ⟨hs, he⟩ | ⟨s, e, hs, he, hs', he', hk⟩
  · have hprev := hp.keys
    simp only [Hearing.over, hs, he, orKey]
    exact hprev
  · refine Or.inr ⟨s, e, ?_, ?_, hs', he', hk⟩
    · simp only [Hearing.over, hs, orKey_of_ne_nil hs']
    · simp only [Hearing.over, he, orKey_of_ne_nil he']

/-- So does the upsert. -/
theorem Sourced.upsert {h : Hearing} {old : Option Row}
    (hh : Sourced K N h.signPub h.encryptPub h.name)
    (ho : ∀ r, old = some r → Sourced K N r.signPub r.encryptPub r.name) :
    Sourced K N (Row.upsert old h).signPub (Row.upsert old h).encryptPub
      (Row.upsert old h).name := by
  cases old with
  | none => exact hh
  | some r =>
    have hr := ho r rfl
    refine ⟨?_, ?_⟩
    · rcases hh.keys with ⟨hs, he⟩ | ⟨s, e, hs, he, hs', he', hk⟩
      · have hkeys := hr.keys
        simp only [Row.upsert, Row.update, hs, he, coalesce]
        exact hkeys
      · refine Or.inr ⟨s, e, ?_, ?_, hs', he', hk⟩
        · simp only [Row.upsert, Row.update, hs, coalesce]
        · simp only [Row.upsert, Row.update, he, coalesce]
    · simp only [Row.upsert, Row.update]
      split_ifs
      · exact hh.named
      · exact hr.named

end Merge

/-! ### Stores -/

section Store

variable {K : NodeId → Bytes → Bytes → Prop} {N : NodeId → String → Prop}

namespace ColdStore

/-- Every record of the store has a source under its own node. -/
structure Genuine (K : NodeId → Bytes → Bytes → Prop) (N : NodeId → String → Prop)
    (s : ColdStore) : Prop where
  buffered : ∀ n h, s.buf.get? n = some h → Sourced (K n) (N n) h.signPub h.encryptPub h.name
  onDisk : ∀ n r, s.rows.get? n = some r → Sourced (K n) (N n) r.signPub r.encryptPub r.name

theorem genuine_iff {s : ColdStore} : Genuine K N s ↔
    s.Records (fun n h => Sourced (K n) (N n) h.signPub h.encryptPub h.name)
      (fun n r => Sourced (K n) (N n) r.signPub r.encryptPub r.name) :=
  ⟨fun h => ⟨h.buffered, h.onDisk⟩, fun h => ⟨h.buffered, h.onDisk⟩⟩

theorem merging_sourced :
    Merging (fun n h => Sourced (K n) (N n) h.signPub h.encryptPub h.name)
      (fun n r => Sourced (K n) (N n) r.signPub r.encryptPub r.name) where
  merged := fun _ _ _ hh hp => hh.over hp
  upsert := fun _ _ _ hh ho => hh.upsert ho

theorem genuine_new (mono : ℚ) : Genuine K N (ColdStore.new OrderedDict.empty mono) :=
  genuine_iff.mpr (records_new mono)

theorem Genuine.mono {K' : NodeId → Bytes → Bytes → Prop} {N' : NodeId → String → Prop}
    {s : ColdStore} (h : Genuine K N s) (hK : ∀ n a b, K n a b → K' n a b)
    (hN : ∀ n x, N n x → N' n x) : Genuine K' N' s where
  buffered := fun n b hb => (h.buffered n b hb).mono (hK n) (hN n)
  onDisk := fun n r hr => (h.onDisk n r hr).mono (hK n) (hN n)

theorem Genuine.flush {s : ColdStore} (h : Genuine K N s) (mono : ℚ) :
    Genuine K N (s.flush mono) :=
  genuine_iff.mpr ((genuine_iff.mp h).flush merging_sourced mono)

theorem Genuine.maybeFlush {s : ColdStore} (h : Genuine K N s) (check done : ℚ) :
    Genuine K N (s.maybeFlush check done) :=
  genuine_iff.mpr ((genuine_iff.mp h).maybeFlush merging_sourced check done)

theorem Genuine.buffer {s : ColdStore} (h : Genuine K N s) {n : NodeId} {b : Hearing}
    (hb : Sourced (K n) (N n) b.signPub b.encryptPub b.name) (mono : ℚ) :
    Genuine K N (s.buffer n b mono) :=
  genuine_iff.mpr ((genuine_iff.mp h).buffer merging_sourced hb mono)

theorem Genuine.expire {s : ColdStore} (h : Genuine K N s) (ttl now : ℚ) :
    Genuine K N (s.expire ttl now) :=
  genuine_iff.mpr ((genuine_iff.mp h).expire ttl now)

end ColdStore

namespace RouteTable

/-- The store of the table, if it has one, is genuine. -/
def Genuine (K : NodeId → Bytes → Bytes → Prop) (N : NodeId → String → Prop)
    (t : RouteTable) : Prop :=
  ∀ s, t.cold = some s → s.Genuine K N

theorem Genuine.mapCold {t t' : RouteTable} (h : t.Genuine K N) {f : ColdStore → ColdStore}
    (hf : ∀ s, s.Genuine K N → (f s).Genuine K N) (ht : t'.cold = t.cold.map f) :
    t'.Genuine K N := by
  intro s hs
  rw [ht] at hs
  obtain ⟨u, hu, rfl⟩ := Option.map_eq_some_iff.mp hs
  exact hf u (h u hu)

theorem Genuine.note {t : RouteTable} (h : t.Genuine K N) {n : NodeId} {b : Hearing} {mono : ℚ}
    (hb : Sourced (K n) (N n) b.signPub b.encryptPub b.name) :
    (t.note n b mono).Genuine K N :=
  h.mapCold (fun _ hs => hs.buffer hb mono) rfl

theorem Genuine.commit {t t' : RouteTable} (h : t.Genuine K N) {c : Copy} {now mono : ℚ}
    (hc : Sourced (K c.nodeId) (N c.nodeId) c.signPub c.encryptPub c.name)
    (hx : t.commit c now mono = some t') : t'.Genuine K N := by
  obtain ⟨e, -, rfl⟩ := commit_eq_some_iff.mp hx
  exact Genuine.note (t := t.place c.nodeId e) h hc

/-- Whatever is learned from a sourced copy keeps the store genuine. -/
theorem Genuine.learn {t t' : RouteTable} (h : t.Genuine K N) {c : Copy} {now mono : ℚ}
    {v : LearnVerdict} (hc : Sourced (K c.nodeId) (N c.nodeId) c.signPub c.encryptPub c.name)
    (hx : t.learn c now mono = some (v, t')) : t'.Genuine K N := by
  cases learn_cases hx with
  | self _ => exact h
  | committed v t' _ _ hcommit => exact Genuine.commit (t := t.dropPending c.nodeId) h hc hcommit
  | keptEqual old _ _ _ _ _ _ => exact Genuine.note (t := t.dropPending c.nodeId) h hc
  | settling old _ _ _ _ =>
    exact Genuine.note (t := { t with pending := t.sharpened c now }) h hc
  | keptWorse old _ _ _ _ => exact h.note hc

/-- A settle commits without keys. -/
theorem Genuine.tick {t t' : RouteTable} (h : t.Genuine K N) {clk : TickClock}
    (hx : t.tick clk = some t') : t'.Genuine K N := by
  obtain ⟨u, hu, rfl⟩ := Option.map_eq_some_iff.mp hx
  have hsettle : u.Genuine K N := by
    refine foldlM_invariant (Genuine K N) (fun {s e s'} _ hs hone => ?_) h hu
    exact Genuine.commit (t := s.dropPending e.1) hs sourced_none hone
  exact hsettle.mapCold (fun s hs => hs.maybeFlush clk.check clk.done) rfl

theorem Genuine.nextHop {t t' : RouteTable} (h : t.Genuine K N) {n : NodeId} {a : Option Mac}
    (hx : t.nextHop n = some (a, t')) : t'.Genuine K N := by
  cases nextHop_cases hx with
  | hit e _ => exact h
  | cold r t' _ _ hput =>
    obtain ⟨e, -, rfl⟩ := putHot_eq_some_iff.mp hput
    exact h
  | miss _ _ => exact h

/-- Warming reads the store. -/
theorem Genuine.warm {t t' : RouteTable} (h : t.Genuine K N) {limit : Option ℕ}
    (hx : t.warm limit = some t') : t'.Genuine K N := by
  unfold RouteTable.Genuine
  rw [(warm_rest hx).1]
  exact h

end RouteTable

end Store

/-! ### Nodes -/

namespace Node

/-- A frame of the run carried an announce of `n` that passes `parse_announce`, with
the given contents. -/
def Announced (c : Crypto) (ops : List Op) (n : NodeId) (info : AnnounceInfo) : Prop :=
  ∃ data m clk pkt, Op.frame data m clk ∈ ops ∧ Packet.fromBytes data = .ok pkt ∧
    pkt.type = typeAnnounce ∧ pkt.src = n ∧ parseAnnounce c pkt.src pkt.payload = .ok info

def KeysOf (c : Crypto) (ops : List Op) (n : NodeId) (s e : Bytes) : Prop :=
  ∃ info, Announced c ops n info ∧ info.signPub = s ∧ info.encryptPub = e

def NameOf (c : Crypto) (ops : List Op) (n : NodeId) (name : String) : Prop :=
  ∃ info, Announced c ops n info ∧ decodeReplace info.appData = name

theorem Announced.mono {c : Crypto} {ops ops' : List Op} {n : NodeId} {info : AnnounceInfo}
    (h : Announced c ops n info) (hsub : ops ⊆ ops') : Announced c ops' n info := by
  obtain ⟨data, m, clk, pkt, hmem, hrest⟩ := h
  exact ⟨data, m, clk, pkt, hsub hmem, hrest⟩

/-- The store of the node is genuine with respect to what it has received. -/
def Genuine (c : Crypto) (past : List Op) (n : Node) : Prop :=
  n.routes.Genuine (KeysOf c past) (NameOf c past)

theorem Genuine.mono {c : Crypto} {past past' : List Op} {n : Node} (h : n.Genuine c past)
    (hsub : past ⊆ past') : n.Genuine c past' := by
  intro s hs
  refine (h s hs).mono (fun m a b => ?_) (fun m x => ?_)
  · rintro ⟨info, hinfo, hk⟩
    exact ⟨info, hinfo.mono hsub, hk⟩
  · rintro ⟨info, hinfo, hx⟩
    exact ⟨info, hinfo.mono hsub, hx⟩

/-- An accepted announce is a source of what it is learned with. -/
theorem Announced.sourced {c : Crypto} {ops : List Op} {n : Node} {pkt : Packet} {m : FrameMeta}
    {info : AnnounceInfo} (h : Announced c ops pkt.src info)
    (hparse : parseAnnounce c pkt.src pkt.payload = .ok info) :
    Sourced (KeysOf c ops pkt.src) (NameOf c ops pkt.src) (n.copyOf pkt m (some info)).signPub
      (n.copyOf pkt m (some info)).encryptPub (n.copyOf pkt m (some info)).name := by
  obtain ⟨hs, he⟩ := parseAnnounce_keyLen hparse
  have hne {k : Bytes} (hk : k.length = keyLen) : k ≠ [] := by
    rintro rfl
    cases hk
  exact ⟨Or.inr ⟨_, _, rfl, rfl, hne hs, hne he, info, h, rfl, rfl⟩, Or.inr ⟨info, h, rfl⟩⟩

theorem Genuine.handle {c : Crypto} {past : List Op} {n n' : Node} (h : n.Genuine c past)
    {data : Bytes} {m : FrameMeta} {clk : HandleClock} {es : List Event}
    (hmem : Op.frame data m clk ∈ past) (hx : n.handle c data m clk = some (n', es)) :
    n'.Genuine c past := by
  cases handle_cases hx with
  | garbled e _ => exact h
  | packet pkt v f _ _ _ => exact h
  | rejected pkt v f e _ _ _ _ _ => exact h
  | verified pkt v f info w t hp ht _ _ hparse hl =>
    have hann : Announced c past pkt.src info := ⟨data, m, clk, pkt, hmem, hp, ht, rfl, hparse⟩
    exact RouteTable.Genuine.learn h (hann.sourced hparse) hl
  | own pkt f _ _ _ => exact h
  | copy pkt v f w t _ _ _ _ _ hl => exact RouteTable.Genuine.learn h sourced_none hl

theorem Genuine.step {c : Crypto} {past : List Op} {n n' : Node} {op : Op} {es : List Event}
    (h : n.Genuine c past) (hx : n.step c op = some (n', es)) :
    n'.Genuine c (past ++ [op]) := by
  have h' : n.Genuine c (past ++ [op]) := h.mono (List.subset_append_left past [op])
  cases step_cases hx with
  | frame _ => exact h'.handle (by simp) hx
  | relay done hr =>
    unfold Genuine
    rw [(edge_relayDue hr).routes_eq]
    exact h'
  | announce done ha =>
    unfold Genuine
    rw [(edge_announceStep ha).routes_eq]
    exact h'
  | tick t ht => exact RouteTable.Genuine.tick h' ht
  | flush mono => exact RouteTable.Genuine.mapCold h' (fun s hs => hs.flush mono) rfl
  | expire mono now nowCold =>
    exact RouteTable.Genuine.mapCold h' (fun s hs => hs.expire n.routes.ttl nowCold) rfl
  | nextHop a t ht => exact RouteTable.Genuine.nextHop h' ht
  | warm t ht => exact RouteTable.Genuine.warm h' ht

end Node

/-- What a record with keys and a name owes to the announces received for `n`. -/
structure AuthenticRecord (c : Crypto) (ops : List Node.Op) (n : NodeId)
    (signPub encryptPub : Option Bytes) (name : String) : Prop where
  keys : signPub.isSome ∨ encryptPub.isSome → ∃ info, Node.Announced c ops n info ∧
    signPub = some info.signPub ∧ encryptPub = some info.encryptPub ∧
    nodeIdFromKey c info.signPub = n.val
  named : name ≠ "" → ∃ info, Node.Announced c ops n info ∧ decodeReplace info.appData = name

theorem Sourced.authentic {c : Crypto} {ops : List Node.Op} {n : NodeId} {s e : Option Bytes}
    {name : String} (h : Sourced (Node.KeysOf c ops n) (Node.NameOf c ops n) s e name) :
    AuthenticRecord c ops n s e name where
  keys := by
    intro hsome
    rcases h.keys with ⟨rfl, rfl⟩ | ⟨_, _, rfl, rfl, -, -, info, hinfo, rfl, rfl⟩
    · simp at hsome
    · have hann := hinfo
      obtain ⟨data, m, clk, pkt, -, -, -, rfl, hparse⟩ := hann
      exact ⟨info, hinfo, rfl, rfl, (parseAnnounce_nodeId hparse).2⟩
  named := fun hname => h.named.resolve_left hname

/-- In every state that a node reaches from an empty database, every record in the
buffer and on disk is authentic. -/
theorem stored_keys_authentic (c : Crypto) (iface : String) (identity : Identity)
    (interval : ℚ) (name : String) (hopLimit : ℤ) (mono started mono₀ : ℚ) {ops : List Node.Op}
    {node : Node} {ess : List (List Event)}
    (hx : exec (Node.step c) (Node.new iface identity interval name
      (some (ColdStore.new OrderedDict.empty mono₀)) hopLimit mono started) ops =
        some (node, ess)) :
    ∀ s, node.routes.cold = some s →
      (∀ n h, s.buf.get? n = some h →
        AuthenticRecord c ops n h.signPub h.encryptPub h.name) ∧
      ∀ n r, s.rows.get? n = some r →
        AuthenticRecord c ops n r.signPub r.encryptPub r.name := by
  have hstart : Node.Genuine c [] (Node.new iface identity interval name
      (some (ColdStore.new OrderedDict.empty mono₀)) hopLimit mono started) := by
    intro s hs
    obtain rfl := Option.some.inj hs
    exact ColdStore.genuine_new mono₀
  have hend := exec_history (fun past n => Node.Genuine c past n)
    (fun hn hstep => Node.Genuine.step hn hstep) hstart hx
  intro s hs
  have hs' := hend s hs
  exact ⟨fun n h hb => (hs'.buffered n h hb).authentic,
    fun n r hr => (hs'.onDisk n r hr).authentic⟩

/-- The genuine announce, then an unverified copy of it, then a flush. -/
def announcedRun : List Node.Op :=
  [.frame (sampleAnnounce 3).frame ⟨macOf 1, some (-60)⟩ (HandleClock.const 100),
    .frame (sampleAnnounce 2).frame ⟨macOf 2, none⟩ (HandleClock.const 101),
    .tick ⟨102, 102, 102, 102⟩, .flush 110]

theorem authentic_announcedRun : ∃ node ess s r,
    exec (Node.step sampleCrypto) Node.sampleStart announcedRun = some (node, ess) ∧
    node.routes.cold = some s ∧ s.rows.get? sampleNode = some r ∧
    r.signPub = some samplePub ∧
    AuthenticRecord sampleCrypto announcedRun sampleNode r.signPub r.encryptPub r.name := by
  have hrun : ((exec (Node.step sampleCrypto) Node.sampleStart announcedRun).bind fun x =>
      x.1.routes.cold.bind fun s => (s.rows.get? sampleNode).map Row.signPub) =
        some (some samplePub) := by
    decide +kernel
  obtain ⟨⟨node, ess⟩, hx, hrun⟩ := Option.bind_eq_some_iff.mp hrun
  obtain ⟨s, hs, hrun⟩ := Option.bind_eq_some_iff.mp hrun
  obtain ⟨r, hr, hsign⟩ := Option.map_eq_some_iff.mp hrun
  exact ⟨node, ess, s, r, hx, hs, hr, hsign,
    (stored_keys_authentic _ _ _ _ _ _ _ _ _ hx s hs).2 sampleNode r hr⟩

end Beachedmesh
