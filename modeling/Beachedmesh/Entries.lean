import Beachedmesh.HopCount

/-!
# Every route entry is real

A next hop and a hop count travel through four stores: a commit, a settle, a
promotion, a merge or an upsert moves the pair, and none of them takes the two
from different copies. So what stands anywhere in a table goes back to one copy
that the node received.
-/
namespace Beachedmesh
open Machine

/-! ### Tables -/

namespace RouteTable

/-- The table holds the next hop `m` at `k` hops for `n`, in one of its four stores. -/
inductive Entry (t : RouteTable) (n : NodeId) : Mac → ℕ → Prop
  | hot (e : Packed) : t.hot.get? n = some e → Entry t n e.nextHop e.hops
  | settling (p : Settle) : t.pending.get? n = some p → Entry t n p.nextHop p.hops
  | buffered (s : ColdStore) (h : Hearing) : t.cold = some s → s.buf.get? n = some h →
      Entry t n h.nextHop h.hops
  | onDisk (s : ColdStore) (r : Row) : t.cold = some s → s.rows.get? n = some r →
      Entry t n r.nextHop r.hops

/-- Every entry of the table satisfies `P`. -/
structure Backed (P : NodeId → Mac → ℕ → Prop) (t : RouteTable) : Prop where
  hot : ∀ n e, t.hot.get? n = some e → P n e.nextHop e.hops
  settling : ∀ n p, t.pending.get? n = some p → P n p.nextHop p.hops
  stored : ∀ s, t.cold = some s →
    s.Records (fun n h => P n h.nextHop h.hops) (fun n r => P n r.nextHop r.hops)

/-- Nothing is known of any destination. -/
structure Vacant (t : RouteTable) : Prop where
  hot : t.hot = OrderedDict.empty
  settling : t.pending = OrderedDict.empty
  buffered : ∀ s, t.cold = some s → s.buf = OrderedDict.empty
  onDisk : ∀ s, t.cold = some s → s.rows = OrderedDict.empty

variable {P : NodeId → Mac → ℕ → Prop} {t t' : RouteTable}

theorem Backed.of_entry (h : t.Backed P) {n : NodeId} {m : Mac} {k : ℕ} (he : t.Entry n m k) :
    P n m k := by
  cases he with
  | hot e he => exact h.hot n e he
  | settling p hp => exact h.settling n p hp
  | buffered s x hs hx => exact (h.stored s hs).buffered n x hx
  | onDisk s r hs hr => exact (h.stored s hs).onDisk n r hr

theorem Vacant.backed (h : t.Vacant) : t.Backed P where
  hot n e he := by simp [h.hot] at he
  settling n p hp := by simp [h.settling] at hp
  stored s hs :=
    ⟨fun n x hx => by simp [h.buffered s hs] at hx, fun n r hr => by simp [h.onDisk s hs] at hr⟩

theorem Backed.mono (h : t.Backed P) {Q : NodeId → Mac → ℕ → Prop}
    (hPQ : ∀ n m k, P n m k → Q n m k) : t.Backed Q where
  hot n e he := hPQ _ _ _ (h.hot n e he)
  settling n p hp := hPQ _ _ _ (h.settling n p hp)
  stored s hs :=
    ⟨fun n x hx => hPQ _ _ _ ((h.stored s hs).buffered n x hx),
      fun n r hr => hPQ _ _ _ ((h.stored s hs).onDisk n r hr)⟩

/-- Both merges take next hop and hop count from the newer hearing. -/
theorem merging_pair : ColdStore.Merging (fun n h => P n h.nextHop h.hops)
    (fun n r => P n r.nextHop r.hops) where
  merged _ _ _ hh _ := hh
  upsert n h old hh _ := by rwa [Row.upsert_nextHop, Row.upsert_hops]

theorem Backed.mapCold (h : t.Backed P) {f : ColdStore → ColdStore}
    (hf : ∀ s, s.Records (fun n h => P n h.nextHop h.hops) (fun n r => P n r.nextHop r.hops) →
      (f s).Records (fun n h => P n h.nextHop h.hops) (fun n r => P n r.nextHop r.hops)) :
    Backed P { t with cold := t.cold.map f } where
  hot := h.hot
  settling := h.settling
  stored := by
    intro s hs
    obtain ⟨u, hu, rfl⟩ := Option.map_eq_some_iff.mp hs
    exact hf u (h.stored u hu)

theorem Backed.place (h : t.Backed P) {n : NodeId} {e : Packed} (he : P n e.nextHop e.hops) :
    (t.place n e).Backed P where
  hot := by
    intro m x hx
    rcases get?_of_get?_place hx with ⟨rfl, rfl⟩ | ⟨-, hold⟩
    · exact he
    · exact h.hot m x hold
  settling := h.settling
  stored := h.stored

theorem Backed.note (h : t.Backed P) {n : NodeId} {x : Hearing} (hx : P n x.nextHop x.hops)
    (mono : ℚ) : (t.note n x mono).Backed P :=
  h.mapCold fun _ hs => hs.buffer merging_pair hx mono

theorem Backed.dropPending (h : t.Backed P) (n : NodeId) : (t.dropPending n).Backed P where
  hot := h.hot
  settling := by
    intro m p hp
    simp only [RouteTable.dropPending, OrderedDict.get?_erase] at hp
    split_ifs at hp
    exact h.settling m p hp
  stored := h.stored

theorem Backed.putHot (h : t.Backed P) {n : NodeId} {m : Mac} {k : ℕ} {rssi : Option ℤ}
    {lastSeen : ℚ} (hP : P n m k) (hx : t.putHot n m k rssi lastSeen = some t') :
    t'.Backed P := by
  obtain ⟨e, he, rfl⟩ := putHot_eq_some_iff.mp hx
  obtain ⟨rfl, rfl, -⟩ := pack_eq_some_iff.mp he
  exact h.place hP

theorem Backed.commit (h : t.Backed P) {c : Copy} {now mono : ℚ}
    (hc : P c.nodeId c.nextHop c.hops) (hx : t.commit c now mono = some t') : t'.Backed P := by
  obtain ⟨u, hu, rfl⟩ := Option.map_eq_some_iff.mp hx
  exact (h.putHot hc hu).note hc mono

/-- A candidate is the one that waited or the copy itself. -/
theorem Backed.sharpened (h : t.Backed P) {c : Copy} (hc : P c.nodeId c.nextHop c.hops)
    (now : ℚ) : Backed P { t with pending := t.sharpened c now } where
  hot := h.hot
  settling := by
    intro n p hp
    rw [get?_sharpened] at hp
    split_ifs at hp with hn
    · subst hn
      cases hs : sharpen (t.pending.get? c.nodeId) c now with
      | none =>
        rw [hs] at hp
        exact h.settling _ p (by simpa using hp)
      | some q =>
        rw [hs] at hp
        obtain rfl : q = p := by simpa using hp
        unfold sharpen at hs
        split at hs
        · obtain rfl := Option.some.inj hs
          exact hc
        · split_ifs at hs
          obtain rfl := Option.some.inj hs
          exact hc
    · exact h.settling n p hp
  stored := h.stored

/-- A copy moves its own pair into the table, or the held pair about it. -/
theorem Backed.learn (h : t.Backed P) {c : Copy} {now mono : ℚ} {v : LearnVerdict}
    (hc : P c.nodeId c.nextHop c.hops) (hx : t.learn c now mono = some (v, t')) :
    t'.Backed P := by
  cases learn_cases hx with
  | self _ => exact h
  | committed v t' _ _ hcommit => exact (h.dropPending c.nodeId).commit hc hcommit
  | keptEqual old _ hold _ _ _ _ =>
    exact (h.dropPending c.nodeId).note (x := old.heard c now) (h.hot _ old hold) mono
  | settling old _ hold _ _ =>
    exact (h.sharpened hc now).note (x := old.heard c now) (h.hot _ old hold) mono
  | keptWorse old _ hold _ _ => exact h.note (x := old.heard c now) (h.hot _ old hold) mono

theorem Backed.tick (h : t.Backed P) {clk : TickClock} (hx : t.tick clk = some t') :
    t'.Backed P := by
  obtain ⟨u, hu, rfl⟩ := Option.map_eq_some_iff.mp hx
  have hsettle : u.Backed P := by
    refine foldlM_invariant (Backed P) (fun {s e s'} he hs hone => ?_) h hu
    have hmem := OrderedDict.get?_eq_some_iff.mpr (List.mem_of_mem_filter he)
    exact (hs.dropPending e.1).commit (h.settling e.1 e.2 hmem) hone
  exact hsettle.mapCold fun s hs => hs.maybeFlush merging_pair clk.check clk.done

/-- What the store answers is a record of it. -/
theorem Backed.recorded (h : t.Backed P) {n : NodeId} {r : Route} (hr : t.recorded n = some r) :
    P n r.nextHop r.hops := by
  obtain ⟨s, hs, hget⟩ := Option.bind_eq_some_iff.mp hr
  unfold ColdStore.get at hget
  cases hb : s.buf.get? n with
  | some x =>
    rw [hb] at hget
    obtain rfl := Option.some.inj hget
    exact (h.stored s hs).buffered n x hb
  | none =>
    rw [hb] at hget
    obtain ⟨row, hrow, rfl⟩ := Option.map_eq_some_iff.mp hget
    exact (h.stored s hs).onDisk n row hrow

theorem Backed.nextHop (h : t.Backed P) {n : NodeId} {a : Option Mac}
    (hx : t.nextHop n = some (a, t')) : t'.Backed P := by
  cases nextHop_cases hx with
  | hit e he =>
    refine ⟨fun m x hm => ?_, h.settling, h.stored⟩
    rw [OrderedDict.get?_reinsert] at hm
    split_ifs at hm with hmn
    · obtain rfl := Option.some.inj hm
      exact hmn ▸ h.hot n _ he
    · exact h.hot m x hm
  | cold r t' _ hr hput => exact h.putHot (h.recorded hr) hput
  | miss _ _ => exact h

theorem Backed.expire (h : t.Backed P) (now nowCold : ℚ) : (t.expire now nowCold).2.Backed P := by
  have hcold := h.mapCold (f := fun s => s.expire t.ttl nowCold) fun s hs => hs.expire t.ttl nowCold
  refine ⟨fun n e he => ?_, hcold.settling, hcold.stored⟩
  simp only [RouteTable.expire, OrderedDict.get?_filter] at he
  exact h.hot n e (Option.filter_eq_some_iff.mp he).1

theorem Backed.warm (h : t.Backed P) {limit : Option ℕ} (hx : t.warm limit = some t') :
    t'.Backed P := by
  unfold RouteTable.warm at hx
  cases hs : t.cold with
  | none =>
    simp only [hs] at hx
    exact Option.some.inj hx ▸ h
  | some s =>
    simp only [hs] at hx
    refine foldlM_invariant (Backed P) (fun {u e u'} he hu hput => hu.putHot ?_ hput) h hx
    have hmem : (e.1, e.2) ∈ s.rows.entries := by
      simpa using List.mem_of_mem_take he
    exact (h.stored s hs).onDisk e.1 e.2 (OrderedDict.get?_eq_some_iff.mpr hmem)

end RouteTable

/-! ### Nodes -/

namespace Node

variable {c : Crypto} {P : NodeId → Mac → ℕ → Prop} {n n' : Node}

/-- What a reception enters in the table comes from the received copy. -/
theorem backed_handle (h : n.routes.Backed P) {data : Bytes} {m : FrameMeta} {clk : HandleClock}
    {es : List Event}
    (hP : ∀ pkt info, Packet.fromBytes data = .ok pkt → pkt.type = typeAnnounce →
      P pkt.src m.srcMac (n.copyOf pkt m info).hops)
    (hx : n.handle c data m clk = some (n', es)) : n'.routes.Backed P := by
  cases handle_cases hx with
  | garbled e _ => exact h
  | packet pkt v f _ _ _ => exact h
  | rejected pkt v f e _ _ _ _ _ => exact h
  | verified pkt v f info w t hp ht _ _ _ hl => exact h.learn (hP pkt (some info) hp ht) hl
  | own pkt f _ _ _ => exact h
  | copy pkt v f w t hp ht _ _ _ hl => exact h.learn (hP pkt none hp ht) hl

theorem backed_step (h : n.routes.Backed P) {op : Op} {es : List Event}
    (hop : op.isFrame = false) (hx : n.step c op = some (n', es)) : n'.routes.Backed P := by
  cases step_cases hx with
  | frame _ => cases hop
  | relay done hr =>
    rw [(edge_relayDue hr).routes_eq]
    exact h
  | announce done ha =>
    rw [(edge_announceStep ha).routes_eq]
    exact h
  | tick t ht => exact h.tick ht
  | flush mono => exact h.mapCold fun s hs => hs.flush RouteTable.merging_pair mono
  | expire mono now nowCold => exact h.expire now nowCold
  | nextHop a t ht => exact h.nextHop ht
  | warm t ht => exact h.warm ht

end Node

/-! ### The mesh -/

namespace Mesh

variable {ι : Type} {c : Crypto} {mac : ι → Mac} {mesh mesh' : Mesh ι}

/-- The transmission `o` was made by a node with the address `n`. -/
def SentBy (mesh : Mesh ι) (n : NodeId) (o : ℕ) : Prop :=
  ∃ e, mesh.air[o]? = some e ∧ (mesh.nodes e.sender).identity.nodeId = n

/-- Node `a` received, from a node with the MAC `m`, a copy of an announce of `n` that `n`
itself originated and that had been relayed `k` times since. -/
def Heard (mac : ι → Mac) (mesh : Mesh ι) (a : ι) (n : NodeId) (m : Mac) (k : ℕ) : Prop :=
  ∃ i o e q, (i, a) ∈ mesh.got ∧ mesh.air[i]? = some e ∧ mac e.sender = m ∧
    Packet.fromBytes e.data = .ok q ∧ q.type = typeAnnounce ∧ q.src = n ∧
    mesh.Descends o i k ∧ mesh.SentBy n o

theorem Descends.mono {o i d : ℕ} (hd : mesh.Descends o i d) (h : mesh.Extends mesh') :
    mesh'.Descends o i d := by
  induction hd with
  | origin he hnone => exact .origin (h.getElem? he) hnone
  | relay he hj _ ih => exact .relay (h.getElem? he) hj ih

theorem Heard.mono {a : ι} {n : NodeId} {m : Mac} {k : ℕ} (hh : mesh.Heard mac a n m k)
    (h : mesh.Extends mesh') : mesh'.Heard mac a n m k := by
  obtain ⟨i, o, e, q, hgot, he, hmac, hq, htype, hsrc, hd, e₀, he₀, hid⟩ := hh
  exact ⟨i, o, e, q, h.got _ hgot, h.getElem? he, hmac, hq, htype, hsrc, hd.mono h, e₀,
    h.getElem? he₀, (h.config e₀.sender).identity_eq ▸ hid⟩

/-- A copy names the node that originated it. -/
theorem Causal.sentBy (h : mesh.Causal) {o i d : ℕ} (hd : mesh.Descends o i d) {q : Packet}
    (hq : mesh.Carries i q) : mesh.SentBy q.src o := by
  obtain ⟨p, hp, hq', -⟩ := h.carries hd
  obtain ⟨e, p', he, hp', -, hsrc, -⟩ := h.original hd
  obtain rfl := hp.unique ⟨e, he, hp'⟩
  obtain rfl := hq.unique hq'
  exact ⟨e, he, hsrc.symm⟩

/-- Every entry was heard. -/
structure Genuine (mac : ι → Mac) (H : ℤ) (mesh : Mesh ι) : Prop where
  causal : mesh.Causal
  hopLimit_eq : ∀ a, (mesh.nodes a).hopLimit = H
  backed : ∀ a, (mesh.nodes a).routes.Backed (mesh.Heard mac a)

theorem Genuine.step [DecidableEq ι] {H : ℤ} (h : mesh.Genuine mac H) {op : Op ι}
    {es : List Event} (hx : mesh.step c mac op = some (mesh', es)) : mesh'.Genuine mac H := by
  have hext := extends_step hx
  have hcausal := h.causal.step hx
  have hlimit (a : ι) : (mesh'.nodes a).hopLimit = H :=
    (hext.config a).hopLimit_eq.trans (h.hopLimit_eq a)
  have hold (a : ι) : (mesh.nodes a).routes.Backed (mesh'.Heard mac a) :=
    (h.backed a).mono fun _ _ _ hh => hh.mono hext
  refine ⟨hcausal, hlimit, fun b => ?_⟩
  cases step_cases hx with
  | @deliver i a rssi clk e n es he hn =>
    by_cases hb : b = a
    · subst hb
      rw [nodes_delivered_self]
      refine Node.backed_handle (hold b) (fun pkt info hpkt htype => ?_) hn
      have he' := hext.getElem? he
      obtain ⟨o, d, hd⟩ := hcausal.exists_descends he'
      have hhops := hcausal.hops_eq hlimit hd ⟨e, he', hpkt⟩ htype (h.hopLimit_eq b)
        ⟨mac e.sender, rssi⟩ info
      rw [hhops]
      exact ⟨i, o, e, pkt, by simp, he', rfl, hpkt, htype, rfl, hd,
        hcausal.sentBy hd ⟨e, he', hpkt⟩⟩
    · rw [nodes_delivered_of_ne hb]
      exact hold b
  | originate _ _ _ => exact hold b
  | @act a op n es hop hn =>
    by_cases hb : b = a
    · subst hb
      rw [nodes_acted_self]
      exact Node.backed_step (hold b) hop hn
    · rw [nodes_acted_of_ne hb]
      exact hold b

/-- A copy comes from the owner of its address exactly when it was never relayed. -/
theorem Heard.direct_iff (hcausal : mesh.Causal) (hmac : Function.Injective mac) {a : ι}
    {n : NodeId} {m : Mac} {k : ℕ} (hh : mesh.Heard mac a n m k) :
    k = 0 ↔ ∃ b, mac b = m ∧ (mesh.nodes b).identity.nodeId = n := by
  obtain ⟨i, o, e, q, -, he, rfl, hq, -, rfl, hd, -⟩ := hh
  obtain ⟨q', hq', hcause⟩ := hcausal.air i e he
  obtain rfl : q = q' := Except.ok.inj (hq.symm.trans hq')
  cases hd with
  | origin he' hnone =>
    obtain rfl := Option.some.inj (he.symm.trans he')
    cases hcause with
    | original _ horig => exact iff_of_true rfl ⟨e.sender, rfl, horig.1.symm⟩
    | relay j hj _ _ => cases hnone.symm.trans hj
  | relay he' hj _ =>
    obtain rfl := Option.some.inj (he.symm.trans he')
    refine iff_of_false (Nat.succ_ne_zero _) ?_
    rintro ⟨b, hb, hid⟩
    obtain rfl := hmac hb
    cases hcause with
    | original hnone _ => cases hnone.symm.trans hj
    | relay j' _ _ hs => exact hs.foreign hid.symm

end Mesh

variable {ι : Type} [DecidableEq ι]

/-- In every run of a mesh of nodes with distinct MACs and one hop limit that starts with
empty tables: each pair of a next hop and a hop count that a node holds for a destination,
in any of its stores, is that of one copy that the node received of an announce which the
destination originated; and the pair has no hops exactly when the next hop is the MAC of
the destination. -/
theorem entries_heard (c : Crypto) {mac : ι → Mac} (hmac : Function.Injective mac)
    {mesh₀ mesh : Mesh ι} (h₀ : mesh₀.Fresh) (hvacant : ∀ a, (mesh₀.nodes a).routes.Vacant)
    {H : ℤ} (hH : ∀ a, (mesh₀.nodes a).hopLimit = H) {ops : List (Mesh.Op ι)}
    {ess : List (List Event)} (hx : exec (Mesh.step c mac) mesh₀ ops = some (mesh, ess)) (a : ι)
    (n : NodeId) (m : Mac) (k : ℕ) (hentry : (mesh.nodes a).routes.Entry n m k) :
    mesh.Heard mac a n m k ∧ (k = 0 ↔ ∃ b, mac b = m ∧ (mesh.nodes b).identity.nodeId = n) := by
  have hstart : mesh₀.Genuine mac H := ⟨h₀.causal, hH, fun a => (hvacant a).backed⟩
  have hend := exec_invariant (P := fun _ => True) (fun hs _ hstep => Mesh.Genuine.step hs hstep)
    hstart (by simp) hx
  have hheard := (hend.backed a).of_entry hentry
  exact ⟨hheard, hheard.direct_iff hend.causal hmac⟩

theorem vacant_lineMesh (a : Fin 3) : (lineMesh.nodes a).routes.Vacant where
  hot := rfl
  settling := rfl
  buffered s hs := by
    obtain rfl := Option.some.inj hs
    rfl
  onDisk s hs := by
    obtain rfl := Option.some.inj hs
    rfl

theorem entries_heard_line : ∃ mesh ess,
    exec (Mesh.step lineCrypto lineMac) lineMesh lineRelay = some (mesh, ess) ∧
    (mesh.nodes 2).routes.Entry sampleNode (lineMac 1) 1 ∧
    mesh.Heard lineMac 2 sampleNode (lineMac 1) 1 := by
  have hrun : (exec (Mesh.step lineCrypto lineMac) lineMesh lineRelay).bind (fun r =>
      ((r.1.nodes 2).routes.hot.get? sampleNode).map fun e => (e.nextHop, e.hops)) =
        some (lineMac 1, 1) := by
    decide +kernel
  obtain ⟨⟨mesh, ess⟩, hx, hget⟩ := Option.bind_eq_some_iff.mp hrun
  obtain ⟨e, he, hpair⟩ := Option.map_eq_some_iff.mp hget
  obtain ⟨hmac, hhops⟩ := Prod.mk.inj hpair
  have hentry : (mesh.nodes 2).routes.Entry sampleNode (lineMac 1) 1 := by
    rw [← hmac, ← hhops]
    exact .hot e he
  have hinj : Function.Injective lineMac := by
    unfold Function.Injective
    decide +kernel
  exact ⟨mesh, ess, hx, hentry, (entries_heard lineCrypto hinj fresh_lineMesh vacant_lineMesh
    (fun _ => rfl) hx 2 sampleNode (lineMac 1) 1 hentry).1⟩

end Beachedmesh
