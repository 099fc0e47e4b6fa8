import Beachedmesh.Mesh
import Beachedmesh.Support.Positions

/-!
# Who relayed and who heard

A run is gentle where no transmission reaches a node twice, packet ids are fresh and no
cache forgets. In such a run the counter of a pending relay is the number of copies that
the node has received since the first one, and no node relays a packet twice.
-/
namespace Beachedmesh
open Machine

namespace Node

/-- The flooder keeps its books, and what it has in its cache is within the bounds. -/
def Minds (n : Node) : Prop :=
  ∃ capacity ttl, n.flooder.Tracked n.identity.nodeId capacity ttl

/-- By the operation the cache of the node forgets nothing. -/
def Retains (n : Node) (op : Op) : Prop := ∀ fop ∈ op.flood?, n.flooder.Retains fop

instance (n : Node) (op : Op) : Decidable (n.Retains op) :=
  inferInstanceAs (Decidable (∀ fop ∈ op.flood?, n.flooder.Retains fop))

variable {c : Crypto} {n n' : Node}

theorem Minds.step (h : n.Minds) {op : Op} {es : List Event} (hret : n.Retains op)
    (hx : n.step c op = some (n', es)) : n'.Minds := by
  obtain ⟨capacity, ttl, ht⟩ := h
  refine ⟨capacity, ttl, ?_⟩
  rw [flooder_step hx, (config_step hx).identity_eq]
  cases hop : op.flood? with
  | none => exact ht
  | some fop => exact ht.after_of_retains (hret fop hop)

end Node

namespace Emission

variable {ι : Type}

def key? (e : Emission ι) : Option Key :=
  match Packet.fromBytes e.data with
  | .ok q => some q.key
  | .error _ => none

/-- The sender, where it relays the packet with the key `k`. -/
def relayer? (k : Key) (e : Emission ι) : Option ι :=
  if e.cause.isSome ∧ e.key? = some k then some e.sender else none

theorem key?_eq {e : Emission ι} {q : Packet} (h : Packet.fromBytes e.data = .ok q) :
    e.key? = some q.key := by
  simp only [key?, h]

end Emission

namespace Mesh

variable {ι : Type} {c : Crypto} {mac : ι → Mac} {mesh mesh' : Mesh ι}

/-- The nodes that have relayed the packet with the key `k`, in order. -/
def relayers (mesh : Mesh ι) (k : Key) : List ι := mesh.air.filterMap (Emission.relayer? k)

/-- How often the key was originated. -/
def originals (mesh : Mesh ι) (k : Key) : ℕ :=
  mesh.air.countP fun e => decide (e.cause = none ∧ e.key? = some k)

/-- No packet with the key was sent yet. -/
def Unused (mesh : Mesh ι) (k : Key) : Prop := ∀ e ∈ mesh.air, e.key? ≠ some k

instance (mesh : Mesh ι) (k : Key) : Decidable (mesh.Unused k) :=
  inferInstanceAs (Decidable (∀ e ∈ mesh.air, e.key? ≠ some k))

theorem mem_relayers {k : Key} {b : ι} : b ∈ mesh.relayers k ↔
    ∃ e ∈ mesh.air, e.cause.isSome ∧ e.key? = some k ∧ e.sender = b := by
  simp only [relayers, List.mem_filterMap, Emission.relayer?, Option.ite_none_right_eq_some,
    Option.some.injEq, and_assoc]

theorem relayers_append {new : List (Emission ι)} (hair : mesh'.air = mesh.air ++ new) (k : Key) :
    mesh'.relayers k = mesh.relayers k ++ new.filterMap (Emission.relayer? k) := by
  rw [relayers, hair, List.filterMap_append, relayers]

theorem originals_append {new : List (Emission ι)} (hair : mesh'.air = mesh.air ++ new) (k : Key) :
    mesh'.originals k = mesh.originals k +
      new.countP fun e => decide (e.cause = none ∧ e.key? = some k) := by
  rw [originals, hair, List.countP_append, originals]

theorem relayers_originated {a : ι} {b : Bytes} (k : Key) :
    (mesh.originated a b).relayers k = mesh.relayers k :=
  (relayers_append air_originated k).trans (List.append_nil _)

theorem originals_originated {a : ι} {b : Bytes} {pkt : Packet}
    (hpkt : Packet.fromBytes b = .ok pkt) (k : Key) : (mesh.originated a b).originals k =
      mesh.originals k + if pkt.key = k then 1 else 0 := by
  refine (originals_append air_originated k).trans (congrArg (mesh.originals k + ·) ?_)
  simp [List.countP_singleton, Emission.key?, hpkt]

theorem originals_of_unused {k : Key} (h : mesh.Unused k) : mesh.originals k = 0 := by
  rw [originals, List.countP_eq_zero]
  intro e he
  simp [h e he]

section Inbox

variable [DecidableEq ι]

instance decidableGot (mesh : Mesh ι) (i : ℕ) (a : ι) : Decidable ((i, a) ∈ mesh.got) :=
  inferInstance

/-- The transmissions with the key `k` that node `a` has received. -/
def inbox (mesh : Mesh ι) (a : ι) (k : Key) : Finset ℕ :=
  (mesh.air.positions fun e => decide (e.key? = some k)).filter fun i => (i, a) ∈ mesh.got

/-- The transmissions with the key `k` by others than `a`. -/
def others (mesh : Mesh ι) (a : ι) (k : Key) : Finset ℕ :=
  mesh.air.positions fun e => decide (e.key? = some k ∧ e.sender ≠ a)

theorem mem_inbox {i : ℕ} {a : ι} {k : Key} : i ∈ mesh.inbox a k ↔
    (∃ e, mesh.air[i]? = some e ∧ e.key? = some k) ∧ (i, a) ∈ mesh.got := by
  simp only [inbox, Finset.mem_filter, List.mem_positions, decide_eq_true_eq]

theorem mem_others {i : ℕ} {a : ι} {k : Key} : i ∈ mesh.others a k ↔
    ∃ e, mesh.air[i]? = some e ∧ e.key? = some k ∧ e.sender ≠ a := by
  simp only [others, List.mem_positions, decide_eq_true_eq]

/-- Of the transmissions by others, one kind is originations and the other relays. -/
theorem card_others (mesh : Mesh ι) (a : ι) (k : Key) : (mesh.others a k).card =
    mesh.air.countP (fun e => decide (e.cause = none ∧ e.key? = some k ∧ e.sender ≠ a)) +
      ((mesh.relayers k).filter fun b => decide (b ≠ a)).length := by
  rw [others, List.card_positions, relayers]
  induction mesh.air with
  | nil => rfl
  | cons e air ih =>
    rw [List.countP_cons, List.countP_cons, ih, List.filterMap_cons, Emission.relayer?]
    by_cases hk : e.key? = some k <;> by_cases hs : e.sender = a <;> cases hc : e.cause <;>
      simp [hk, hs] <;> omega

/-- So they are at most the originations and the distinct relaying nodes. -/
theorem card_others_le {a : ι} {k : Key} (hnodup : (mesh.relayers k).Nodup) :
    (mesh.others a k).card ≤ mesh.originals k + ((mesh.relayers k).toFinset.erase a).card := by
  have horig : mesh.air.countP
      (fun e => decide (e.cause = none ∧ e.key? = some k ∧ e.sender ≠ a)) ≤ mesh.originals k := by
    refine List.countP_mono_left fun e _ he => ?_
    simp only [decide_eq_true_eq] at he ⊢
    exact ⟨he.1, he.2.1⟩
  have hrelay : ((mesh.relayers k).filter fun b => decide (b ≠ a)).length =
      ((mesh.relayers k).toFinset.erase a).card := by
    rw [← List.toFinset_card_of_nodup (hnodup.filter _), List.toFinset_filter,
      ← Finset.filter_ne']
    simp
  rw [card_others, hrelay]
  omega

/-- New transmissions reach nobody at once. -/
theorem inbox_append {new : List (Emission ι)} (hair : mesh'.air = mesh.air ++ new)
    (hgot : mesh'.got = mesh.got) (hlt : ∀ i a, (i, a) ∈ mesh.got → i < mesh.air.length) (a : ι)
    (k : Key) : mesh'.inbox a k = mesh.inbox a k := by
  ext i
  rw [mem_inbox, mem_inbox, hair, hgot]
  refine and_congr_left fun hi => ?_
  rw [List.getElem?_append_left (hlt i a hi)]

theorem relayers_acted {a : ι} {op : Node.Op} {n : Node} {es : List Event} (k : Key) :
    (mesh.acted a op n es).relayers k = mesh.relayers k ++
      (mesh.emissions a op (Node.sents es)).filterMap (Emission.relayer? k) :=
  relayers_append air_acted k

theorem originals_acted {a : ι} {op : Node.Op} {n : Node} {es : List Event} (k : Key) :
    (mesh.acted a op n es).originals k = mesh.originals k +
      (mesh.emissions a op (Node.sents es)).countP
        fun e => decide (e.cause = none ∧ e.key? = some k) :=
  originals_append air_acted k

theorem inbox_delivered_of_ne {i : ℕ} {e : Emission ι} {a b : ι} {rssi : Option ℤ}
    {clk : HandleClock} {n : Node} {k k' : Key} (he : mesh.air[i]? = some e)
    (hk' : e.key? = some k') (h : b ≠ a ∨ k ≠ k') :
    (mesh.delivered i e a rssi clk n).inbox b k = mesh.inbox b k := by
  ext j
  rw [mem_inbox, mem_inbox, air_delivered, got_delivered, List.mem_append, List.mem_singleton,
    Prod.mk.injEq]
  refine and_congr_right fun ⟨e', he', hk⟩ => or_iff_left ?_
  rintro ⟨rfl, hb⟩
  obtain rfl := Option.some.inj (he.symm.trans he')
  exact h.elim (fun hne => hne hb) fun hne => hne (Option.some.inj (hk.symm.trans hk'))

theorem inbox_subset_delivered {i : ℕ} {e : Emission ι} {a b : ι} {rssi : Option ℤ}
    {clk : HandleClock} {n : Node} {k : Key} :
    mesh.inbox b k ⊆ (mesh.delivered i e a rssi clk n).inbox b k := by
  intro j hj
  obtain ⟨hk, hgot⟩ := mem_inbox.mp hj
  exact mem_inbox.mpr ⟨hk, List.mem_append_left _ hgot⟩

theorem inbox_delivered_self {i : ℕ} {e : Emission ι} {a : ι} {rssi : Option ℤ}
    {clk : HandleClock} {n : Node} {k : Key} (he : mesh.air[i]? = some e) (hk : e.key? = some k) :
    (mesh.delivered i e a rssi clk n).inbox a k = insert i (mesh.inbox a k) := by
  ext j
  rw [Finset.mem_insert, mem_inbox, mem_inbox, air_delivered, got_delivered, List.mem_append,
    List.mem_singleton, Prod.mk.injEq]
  constructor
  · rintro ⟨hj, hgot | ⟨rfl, -⟩⟩
    · exact Or.inr ⟨hj, hgot⟩
    · exact Or.inl rfl
  · rintro (rfl | ⟨hj, hgot⟩)
    · exact ⟨⟨e, he, hk⟩, Or.inr ⟨rfl, rfl⟩⟩
    · exact ⟨hj, Or.inl hgot⟩

end Inbox

/-- What the operation of a node adds to the relaying nodes. -/
theorem Causal.relayers_emissions (h : mesh.Causal) {a : ι} {op : Node.Op} {f : Flooder}
    {bs : List Bytes} (ht : Node.Transmits (mesh.nodes a) op f bs) (k : Key) :
    (mesh.emissions a op bs).filterMap (Emission.relayer? k) = match op with
      | .relay now sends => (((mesh.nodes a).flooder.due now).1.take sends).filterMap fun p =>
          if p.key = k then some a else none
      | _ => [] := by
  have hnone {op : Node.Op} (hop : ∀ now sends, op ≠ .relay now sends) :
      (mesh.emissions a op bs).filterMap (Emission.relayer? k) = [] := by
    refine List.filterMap_eq_nil_iff.mpr fun e he => ?_
    obtain ⟨b, -, rfl⟩ := List.mem_map.mp he
    cases op <;> first
      | exact absurd rfl (hop _ _)
      | simp [Emission.relayer?]
  cases ht with
  | @relay now sends _ hpacks =>
    have hwait (p : Packet) (hp : p ∈ ((mesh.nodes a).flooder.due now).1.take sends) :
        p.version = version ∧ (mesh.took a p.key).isSome := by
      obtain ⟨k', q, hq, -, rfl⟩ := Flooder.mem_due_iff.mp (List.mem_of_mem_take hp)
      obtain ⟨hkey, j, hj, hs⟩ := h.pending a k' q hq
      exact ⟨hs.version_eq, by rw [hkey, hj]; rfl⟩
    simp only [Mesh.emissions]
    clear hnone
    generalize ((mesh.nodes a).flooder.due now).1.take sends = ps at hpacks hwait
    induction hpacks with
    | nil => rfl
    | @cons p b ps bs hpb _ ih =>
      obtain ⟨hver, hcause⟩ := hwait p List.mem_cons_self
      have hdata := Packet.fromBytes_toBytes hver hpb
      have hrelayer : Emission.relayer? k ⟨a, b, mesh.causeOf a b⟩ =
          if p.key = k then some a else none := by
        simp only [Emission.relayer?, Emission.key?, causeOf, hdata, hcause, true_and,
          Option.some.injEq]
      rw [List.map_cons, List.filterMap_cons, List.filterMap_cons, hrelayer,
        ih fun q hq => hwait q (List.mem_cons_of_mem _ hq)]
  | announce _ => exact hnone (by simp)
  | quiet hrelay _ =>
    rw [hnone hrelay]
    cases op <;> first
      | rfl
      | exact absurd rfl (hrelay _ _)

/-- An operation originates at most one packet, and only one that it announces. -/
theorem countP_emissions (h : mesh.Causal) {a : ι} {op : Node.Op} {f : Flooder} {bs : List Bytes}
    (ht : Node.Transmits (mesh.nodes a) op f bs) (k : Key) :
    ((mesh.emissions a op bs).countP fun e => decide (e.cause = none ∧ e.key? = some k)) = 0 ∨
      ((mesh.emissions a op bs).countP fun e => decide (e.cause = none ∧ e.key? = some k)) = 1 ∧
        ∃ d ok, op = .announce d ok ∧ ((mesh.nodes a).announcePacket d).key = k := by
  cases ht with
  | @relay now sends _ hpacks =>
    refine Or.inl (List.countP_eq_zero.mpr fun e he => ?_)
    obtain ⟨b, hb, rfl⟩ := List.mem_map.mp he
    obtain ⟨p, hp, hpb⟩ := hpacks.exists_mem hb
    obtain ⟨k', q, hq, -, rfl⟩ := Flooder.mem_due_iff.mp (List.mem_of_mem_take hp)
    obtain ⟨hkey, j, hj, hs⟩ := h.pending a k' q hq
    simp [causeOf, Packet.fromBytes_toBytes hs.version_eq hpb, hkey, hj]
  | @announce d ok b hb =>
    cases ok with
    | false => exact Or.inl rfl
    | true =>
      have hdata := Packet.fromBytes_toBytes rfl hb
      by_cases hk : ((mesh.nodes a).announcePacket d).key = k
      · refine Or.inr ⟨?_, d, true, rfl, hk⟩
        simp [Mesh.emissions, Emission.key?, hdata, hk]
      · refine Or.inl ?_
        simp [Mesh.emissions, Emission.key?, hdata, hk]
  | quiet _ _ => exact Or.inl rfl

/-! ### Gentle runs -/

section Gentle

variable [DecidableEq ι]

/-- The radio hands nobody its own transmission or one it had, packet ids are fresh, and
caches neither overflow nor meet a key past its lifetime. -/
def Gentle (mac : ι → Mac) (mesh : Mesh ι) : Op ι → Prop
  | .deliver i a rssi clk => ∀ e ∈ mesh.air[i]?, e.sender ≠ a ∧ (i, a) ∉ mesh.got ∧
      (mesh.nodes a).Retains (.frame e.data ⟨mac e.sender, rssi⟩ clk)
  | .originate _ pkt => mesh.Unused pkt.key
  | .act a op => (mesh.nodes a).Retains op ∧
      ∀ d ok, op = .announce d ok → mesh.Unused ((mesh.nodes a).announcePacket d).key

instance (mesh : Mesh ι) (a : ι) (op : Node.Op) : Decidable
    (∀ d ok, op = .announce d ok → mesh.Unused ((mesh.nodes a).announcePacket d).key) :=
  match op with
  | .announce d ok => decidable_of_iff (mesh.Unused ((mesh.nodes a).announcePacket d).key)
      ⟨fun h _ _ he => by cases he; exact h, fun h => h d ok rfl⟩
  | .frame _ _ _ | .relay _ _ | .tick _ | .flush _ | .expire _ _ _ | .nextHop _ | .warm _ =>
    isTrue fun _ _ he => by cases he

instance (mesh : Mesh ι) (op : Op ι) : Decidable (mesh.Gentle mac op) :=
  match op with
  | .deliver i a rssi clk => inferInstanceAs (Decidable (∀ e ∈ mesh.air[i]?,
      e.sender ≠ a ∧ (i, a) ∉ mesh.got ∧
        (mesh.nodes a).Retains (.frame e.data ⟨mac e.sender, rssi⟩ clk)))
  | .originate _ pkt => inferInstanceAs (Decidable (mesh.Unused pkt.key))
  | .act _ _ => inferInstanceAs (Decidable (_ ∧ _))

/-- What gentle runs keep. -/
structure Ledger (mesh : Mesh ι) : Prop where
  causal : mesh.Causal
  minds : ∀ a, (mesh.nodes a).Minds
  got : ∀ i a, (i, a) ∈ mesh.got → ∃ e, mesh.air[i]? = some e ∧ e.sender ≠ a
  originals_le : ∀ k, mesh.originals k ≤ 1
  nodup : ∀ k, (mesh.relayers k).Nodup
  known : ∀ a k, k.1 ≠ (mesh.nodes a).identity.nodeId → (mesh.inbox a k).Nonempty →
    k ∈ (mesh.nodes a).flooder.seen.d.keys
  waiting : ∀ a k p, (mesh.nodes a).flooder.pending.get? k = some p →
    p.heard + 1 = (mesh.inbox a k).card ∧ a ∉ mesh.relayers k

theorem Ledger.lt (h : mesh.Ledger) {i : ℕ} {a : ι} (hgot : (i, a) ∈ mesh.got) :
    i < mesh.air.length := by
  obtain ⟨e, he, -⟩ := h.got i a hgot
  exact (List.getElem?_eq_some_iff.mp he).1

/-- What a node sends reaches nobody at once. -/
theorem Ledger.inbox_acted (h : mesh.Ledger) {a : ι} {op : Node.Op} {n : Node} {es : List Event}
    (b : ι) (k : Key) : (mesh.acted a op n es).inbox b k = mesh.inbox b k :=
  inbox_append air_acted got_acted (fun _ _ hgot => h.lt hgot) b k

theorem Ledger.inbox_originated (h : mesh.Ledger) {a : ι} {b : Bytes} (x : ι) (k : Key) :
    (mesh.originated a b).inbox x k = mesh.inbox x k :=
  inbox_append air_originated got_originated (fun _ _ hgot => h.lt hgot) x k

/-- A node relays what it has received from others. -/
theorem Causal.inbox_of_mem_relayers (h : mesh.Causal) {k : Key} {b : ι}
    (hb : b ∈ mesh.relayers k) :
    (mesh.inbox b k).Nonempty ∧ k.1 ≠ (mesh.nodes b).identity.nodeId := by
  obtain ⟨e, hmem, hcause, hk, rfl⟩ := mem_relayers.mp hb
  obtain ⟨i, he⟩ := List.mem_iff_getElem?.mp hmem
  obtain ⟨q, hq, hc⟩ := h.air i e he
  obtain rfl : q.key = k := Option.some.inj ((Emission.key?_eq hq).symm.trans hk)
  cases hc with
  | original hnone _ => simp [hnone] at hcause
  | relay j _ _ hs =>
    obtain ⟨p, ⟨e', he', hp⟩, hr⟩ := hs.relayed
    refine ⟨⟨j, mem_inbox.mpr ⟨⟨e', he', ?_⟩, hs.got⟩⟩, hs.foreign⟩
    rw [Emission.key?_eq hp, Packet.relayed_key hr]

theorem Ledger.inbox_subset (h : mesh.Ledger) (a : ι) (k : Key) :
    mesh.inbox a k ⊆ mesh.others a k := by
  intro i hi
  obtain ⟨⟨e, he, hk⟩, hgot⟩ := mem_inbox.mp hi
  obtain ⟨e', he', hne⟩ := h.got i a hgot
  obtain rfl := Option.some.inj (he.symm.trans he')
  exact mem_others.mpr ⟨e, he, hk, hne⟩

/-- The copies before the one at hand: one may be the original, so others relayed as many. -/
theorem Ledger.card_inbox_le (h : mesh.Ledger) {i : ℕ} {a : ι} {e : Emission ι} {k : Key}
    (he : mesh.air[i]? = some e) (hk : e.key? = some k) (hne : e.sender ≠ a)
    (hnew : (i, a) ∉ mesh.got) :
    (mesh.inbox a k).card ≤ ((mesh.relayers k).toFinset.erase a).card := by
  have hnot : i ∉ mesh.inbox a k := fun hi => hnew (mem_inbox.mp hi).2
  have hsub : insert i (mesh.inbox a k) ⊆ mesh.others a k :=
    Finset.insert_subset (mem_others.mpr ⟨e, he, hk, hne⟩) (h.inbox_subset a k)
  have hcard := Finset.card_le_card hsub
  rw [Finset.card_insert_of_notMem hnot] at hcard
  have hothers := card_others_le (a := a) (h.nodup k)
  have hone := h.originals_le k
  omega

/-- What the flooder of `a` knows and has waiting after a reception, for a key of others. -/
theorem Ledger.flooder_deliver (h : mesh.Ledger) {a : ι} {rssi : Option ℤ} {clk : HandleClock}
    {e : Emission ι} {n : Node} {es : List Event} {pkt : Packet}
    (hpkt : Packet.fromBytes e.data = .ok pkt)
    (hn : (mesh.nodes a).handle c e.data ⟨mac e.sender, rssi⟩ clk = some (n, es))
    (hret : (mesh.nodes a).Retains (.frame e.data ⟨mac e.sender, rssi⟩ clk)) {k : Key}
    (hk : k.1 ≠ (mesh.nodes a).identity.nodeId) :
    (k ∈ n.flooder.seen.d.keys ↔ k ∈ (mesh.nodes a).flooder.seen.d.keys ∨ k = pkt.key) ∧
      n.flooder.pending.get? k = if k = pkt.key
        then (mesh.nodes a).flooder.slot pkt (clk.receive.schedule + relayDelay rssi clk.draw)
        else (mesh.nodes a).flooder.pending.get? k := by
  have hflood := Node.flood?_frame hpkt ⟨mac e.sender, rssi⟩ clk
  have hstep : (mesh.nodes a).step c (.frame e.data ⟨mac e.sender, rssi⟩ clk) = some (n, es) := hn
  have hfl := Node.flooder_step hstep
  rw [hflood] at hfl
  obtain ⟨capacity, ttl, ht⟩ := h.minds a
  rw [hfl]
  dsimp only
  by_cases hsrc : pkt.src = (mesh.nodes a).identity.nodeId
  · have hkne : k ≠ pkt.key := fun hkk => hk (by rw [hkk]; exact hsrc)
    rw [ht.after_own hsrc, if_neg hkne]
    exact ⟨(or_iff_left hkne).symm, rfl⟩
  · have htook := ht.took_of_retains (hret _ hflood) hsrc
    exact ⟨htook.seen k, by rw [htook.pending, OrderedDict.get?_put]⟩

section Deliver

variable {i : ℕ} {a b : ι} {rssi : Option ℤ} {clk : HandleClock} {e : Emission ι} {n : Node}
  {es : List Event} {pkt : Packet} {k : Key}

/-- The receiver of a packet has its key in the cache then. -/
theorem Ledger.seen_delivered (h : mesh.Ledger) (hpkt : Packet.fromBytes e.data = .ok pkt)
    (hn : (mesh.nodes a).handle c e.data ⟨mac e.sender, rssi⟩ clk = some (n, es))
    (hret : (mesh.nodes a).Retains (.frame e.data ⟨mac e.sender, rssi⟩ clk))
    (hk : k.1 ≠ (mesh.nodes b).identity.nodeId) :
    k ∈ ((mesh.delivered i e a rssi clk n).nodes b).flooder.seen.d.keys ↔
      k ∈ (mesh.nodes b).flooder.seen.d.keys ∨ b = a ∧ k = pkt.key := by
  by_cases hb : b = a
  · subst hb
    rw [nodes_delivered_self, (h.flooder_deliver hpkt hn hret hk).1]
    simp
  · rw [nodes_delivered_of_ne hb]
    simp [hb]

/-- What waits elsewhere, or under another key, goes on to wait. -/
theorem Ledger.pending_delivered_of_ne (h : mesh.Ledger)
    (hpkt : Packet.fromBytes e.data = .ok pkt)
    (hn : (mesh.nodes a).handle c e.data ⟨mac e.sender, rssi⟩ clk = some (n, es))
    (hret : (mesh.nodes a).Retains (.frame e.data ⟨mac e.sender, rssi⟩ clk))
    (hk : k.1 ≠ (mesh.nodes b).identity.nodeId) (hbk : b ≠ a ∨ k ≠ pkt.key) :
    ((mesh.delivered i e a rssi clk n).nodes b).flooder.pending.get? k =
      (mesh.nodes b).flooder.pending.get? k := by
  by_cases hb : b = a
  · subst hb
    rw [nodes_delivered_self, (h.flooder_deliver hpkt hn hret hk).2,
      if_neg (hbk.resolve_left (not_not_intro rfl))]
  · rw [nodes_delivered_of_ne hb]

theorem minds_delivered (hminds : ∀ b, (mesh.nodes b).Minds)
    (hn : (mesh.nodes a).handle c e.data ⟨mac e.sender, rssi⟩ clk = some (n, es))
    (hret : (mesh.nodes a).Retains (.frame e.data ⟨mac e.sender, rssi⟩ clk)) (b : ι) :
    ((mesh.delivered i e a rssi clk n).nodes b).Minds := by
  have hstep : (mesh.nodes a).step c (.frame e.data ⟨mac e.sender, rssi⟩ clk) = some (n, es) := hn
  by_cases hb : b = a
  · rw [hb, nodes_delivered_self]
    exact (hminds a).step hret hstep
  · rw [nodes_delivered_of_ne hb]
    exact hminds b

theorem Ledger.deliver (h : mesh.Ledger) (he : mesh.air[i]? = some e)
    (hn : (mesh.nodes a).handle c e.data ⟨mac e.sender, rssi⟩ clk = some (n, es))
    (hgentle : mesh.Gentle mac (.deliver i a rssi clk))
    (hcausal : (mesh.delivered i e a rssi clk n).Causal) :
    (mesh.delivered i e a rssi clk n).Ledger := by
  obtain ⟨hne, hnew, hret⟩ := hgentle e he
  obtain ⟨pkt, hpkt, -⟩ := h.causal.air i e he
  have hkey := Emission.key?_eq hpkt
  have hminds (b : ι) : ((mesh.delivered i e a rssi clk n).nodes b).Minds :=
    minds_delivered h.minds hn hret b
  have hfresh : i ∉ mesh.inbox a pkt.key := fun hi => hnew (mem_inbox.mp hi).2
  have hinbox {b : ι} {k : Key} (hbk : b ≠ a ∨ k ≠ pkt.key) :
      (mesh.delivered i e a rssi clk n).inbox b k = mesh.inbox b k :=
    inbox_delivered_of_ne he hkey hbk
  refine ⟨hcausal, hminds, fun j b hj => ?_, h.originals_le, h.nodup, fun b k hk hin => ?_,
    fun b k p hp => ?_⟩
  · rw [got_delivered, List.mem_append, List.mem_singleton, Prod.mk.injEq] at hj
    rcases hj with hj | ⟨rfl, rfl⟩
    · exact h.got j b hj
    · exact ⟨e, he, hne⟩
  · rw [nodeId_delivered hn] at hk
    refine (h.seen_delivered hpkt hn hret hk).mpr ?_
    by_cases hbk : b = a ∧ k = pkt.key
    · exact Or.inr hbk
    · rw [hinbox (not_and_or.mp hbk)] at hin
      exact Or.inl (h.known b k hk hin)
  · have hk : k.1 ≠ (mesh.nodes b).identity.nodeId := by
      obtain ⟨_, _, ht⟩ := hminds b
      rw [← nodeId_delivered hn b]
      exact ht.foreign k p hp
    by_cases hbk : b = a ∧ k = pkt.key
    · obtain ⟨rfl, rfl⟩ := hbk
      rw [nodes_delivered_self, (h.flooder_deliver hpkt hn hret hk).2, if_pos rfl] at hp
      rw [inbox_delivered_self he hkey, Finset.card_insert_of_notMem hfresh]
      rcases Flooder.slot_cases ⟨fun _ => true, fun _ _ _ => rfl⟩ hp with
        ⟨q, hq, hcount⟩ | ⟨-, hseen, hzero, -⟩
      · obtain ⟨-, rfl⟩ := Pending.counted_eq_some hcount
        obtain ⟨hheard, hnot⟩ := h.waiting b _ q hq
        exact ⟨congrArg Nat.succ hheard, hnot⟩
      · have hnone : ¬ (mesh.inbox b pkt.key).Nonempty := fun hin => hseen (h.known b _ hk hin)
        refine ⟨?_, fun hb => hnone (h.causal.inbox_of_mem_relayers hb).1⟩
        rw [hzero, Finset.not_nonempty_iff_eq_empty.mp hnone, Finset.card_empty]
    · rw [h.pending_delivered_of_ne hpkt hn hret hk (not_and_or.mp hbk)] at hp
      rw [hinbox (not_and_or.mp hbk)]
      exact h.waiting b k p hp

end Deliver

/-- A relay stops waiting when it is due, and not otherwise, while nothing is received. -/
theorem Ledger.due_of_dropped (h : mesh.Ledger) {a : ι} {op : Node.Op} {f : Flooder}
    {bs : List Bytes} (ht : Node.Transmits (mesh.nodes a) op f bs) {k : Key} {p : Pending}
    (hp : (mesh.nodes a).flooder.pending.get? k = some p) (hnone : f.pending.get? k = none) :
    ∃ now sends, op = .relay now sends ∧
      k ∈ ((mesh.nodes a).flooder.due now).1.map Packet.key := by
  cases ht with
  | @relay now sends _ _ =>
    obtain ⟨capacity, ttl, hm⟩ := h.minds a
    refine ⟨now, sends, rfl, hm.mem_map_key_due.mpr ⟨p, hp, ?_⟩⟩
    rw [Flooder.get?_pending_due, hp] at hnone
    simpa [Option.filter_some] using hnone
  | announce _ => cases hp.symm.trans hnone
  | quiet _ _ => cases hp.symm.trans hnone

/-- An operation of `a` adds `a` to the relaying nodes of a key, if its relay was due. -/
theorem Ledger.newly_relayed (h : mesh.Ledger) {a : ι} {op : Node.Op} {f : Flooder}
    {bs : List Bytes} (ht : Node.Transmits (mesh.nodes a) op f bs) (k : Key) :
    (mesh.emissions a op bs).filterMap (Emission.relayer? k) = [] ∨
      (mesh.emissions a op bs).filterMap (Emission.relayer? k) = [a] ∧ ∃ p,
        (mesh.nodes a).flooder.pending.get? k = some p ∧ f.pending.get? k = none := by
  rw [h.causal.relayers_emissions ht]
  cases ht with
  | @relay now sends _ _ =>
    obtain ⟨capacity, ttl, hm⟩ := h.minds a
    have hnodup : ((((mesh.nodes a).flooder.due now).1.take sends).map Packet.key).Nodup := by
      rw [List.map_take, hm.map_key_due]
      exact (OrderedDict.nodup_keys _).sublist (List.take_sublist _ _)
    dsimp only
    rw [List.filterMap_eq_of_nodup hnodup]
    split_ifs with hk
    · rw [List.map_take] at hk
      obtain ⟨p, hp, hdue⟩ := hm.mem_map_key_due.mp (List.mem_of_mem_take hk)
      refine Or.inr ⟨rfl, p, hp, ?_⟩
      rw [Flooder.get?_pending_due, hp, Option.filter_some]
      simp [hdue]
    · exact Or.inl rfl
  | announce _ => exact Or.inl rfl
  | quiet hrelay _ =>
    cases op <;> first
      | exact Or.inl rfl
      | exact absurd rfl (hrelay _ _)

/-- What a node has in its cache of the keys of others, no operation of its own changes. -/
theorem Ledger.seen_act (h : mesh.Ledger) {a : ι} {op : Node.Op} {n : Node} {es : List Event}
    (hop : op.isFrame = false) (hn : (mesh.nodes a).step c op = some (n, es))
    (hret : (mesh.nodes a).Retains op) {k : Key} (hk : k.1 ≠ (mesh.nodes a).identity.nodeId) :
    k ∈ n.flooder.seen.d.keys ↔ k ∈ (mesh.nodes a).flooder.seen.d.keys := by
  rw [Node.flooder_step hn]
  cases hfop : op.flood? with
  | none => exact Iff.rfl
  | some fop =>
    obtain ⟨capacity, ttl, ht⟩ := h.minds a
    refine (ht.seen_after_of_retains (hret fop hfop) hk).trans (or_iff_left fun hkey => ?_)
    cases op with
    | relay now sends =>
      obtain rfl := Option.some.inj hfop
      cases hkey
    | announce d ok =>
      obtain rfl := Option.some.inj hfop
      exact hk (congrArg Prod.fst (Option.some.inj hkey)).symm
    | frame _ _ _ => cases hop
    | _ => cases hfop

theorem Ledger.act (h : mesh.Ledger) {a : ι} {op : Node.Op} {n : Node} {es : List Event}
    (hop : op.isFrame = false) (hn : (mesh.nodes a).step c op = some (n, es))
    (hgentle : mesh.Gentle mac (.act a op)) (hcausal : (mesh.acted a op n es).Causal) :
    (mesh.acted a op n es).Ledger := by
  obtain ⟨hret, hunused⟩ := hgentle
  have ht := Node.transmits_step hop hn
  have hminds := (h.minds a).step hret hn
  refine ⟨hcausal, fun b => ?_, fun j b hj => ?_, fun k => ?_, fun k => ?_, fun b k hk hin => ?_,
    fun b k p hp => ?_⟩
  · by_cases hb : b = a
    · subst hb
      rwa [nodes_acted_self]
    · rw [nodes_acted_of_ne hb]
      exact h.minds b
  · obtain ⟨e, he, hne⟩ := h.got j b hj
    exact ⟨e, by rw [air_acted, List.getElem?_append_left (h.lt hj), he], hne⟩
  · rw [originals_acted]
    rcases countP_emissions h.causal ht k with hzero | ⟨hone, d, ok, rfl, rfl⟩
    · rw [hzero]
      exact h.originals_le k
    · rw [hone, originals_of_unused (hunused d ok rfl)]
  · rw [relayers_acted]
    rcases h.newly_relayed ht k with hnil | ⟨hone, p, hp, -⟩
    · rw [hnil, List.append_nil]
      exact h.nodup k
    · rw [hone, ← List.concat_eq_append]
      exact (h.nodup k).concat (h.waiting a k p hp).2
  · rw [h.inbox_acted] at hin
    rw [nodeId_acted hn] at hk
    by_cases hb : b = a
    · subst hb
      rw [nodes_acted_self]
      exact (h.seen_act hop hn hret hk).mpr (h.known b k hk hin)
    · rw [nodes_acted_of_ne hb]
      exact h.known b k hk hin
  · rw [h.inbox_acted, relayers_acted, List.mem_append, not_or]
    by_cases hb : b = a
    · subst hb
      rw [nodes_acted_self] at hp
      obtain ⟨hheard, hnot⟩ := h.waiting b k p (ht.pending_of_pending hp)
      refine ⟨hheard, hnot, ?_⟩
      rcases h.newly_relayed ht k with hnil | ⟨-, q, -, hnone⟩
      · simp [hnil]
      · cases hp.symm.trans hnone
    · rw [nodes_acted_of_ne hb] at hp
      obtain ⟨hheard, hnot⟩ := h.waiting b k p hp
      refine ⟨hheard, hnot, ?_⟩
      rcases h.newly_relayed ht k with hnil | ⟨hone, -⟩
      · simp [hnil]
      · simpa [hone] using hb

theorem Ledger.originate (h : mesh.Ledger) {a : ι} {pkt : Packet} {b : Bytes}
    (hpkt : Original (mesh.nodes a) pkt) (hb : pkt.toBytes = some b)
    (hunused : mesh.Unused pkt.key) (hcausal : (mesh.originated a b).Causal) :
    (mesh.originated a b).Ledger := by
  have hdata := Packet.fromBytes_toBytes hpkt.2.1 hb
  refine ⟨hcausal, h.minds, fun j x hj => ?_, fun k => ?_, fun k => ?_, fun x k hk hin => ?_,
    fun x k p hp => ?_⟩
  · obtain ⟨e, he, hne⟩ := h.got j x hj
    exact ⟨e, by rw [air_originated, List.getElem?_append_left (h.lt hj), he], hne⟩
  · rw [originals_originated hdata]
    split_ifs with hk
    · rw [← hk, originals_of_unused hunused]
    · exact h.originals_le k
  · rw [relayers_originated]
    exact h.nodup k
  · rw [h.inbox_originated] at hin
    exact h.known x k hk hin
  · rw [h.inbox_originated, relayers_originated]
    exact h.waiting x k p hp

theorem Ledger.step (h : mesh.Ledger) {op : Op ι} {es : List Event}
    (hgentle : mesh.Gentle mac op) (hx : mesh.step c mac op = some (mesh', es)) :
    mesh'.Ledger := by
  have hcausal := h.causal.step hx
  cases step_cases hx with
  | deliver e n es he hn => exact h.deliver he hn hgentle hcausal
  | originate b hpkt hb => exact h.originate hpkt hb hgentle hcausal
  | act n es hop hn => exact h.act hop hn hgentle hcausal

/-- At the start no cache is over its capacity. -/
theorem Fresh.ledger (h : mesh.Fresh)
    (hsize : ∀ a, (mesh.nodes a).flooder.seen.d.size ≤ (mesh.nodes a).flooder.seen.capacity) :
    mesh.Ledger where
  causal := h.causal
  minds a := ⟨_, _, ⟨h.own a, rfl, rfl, hsize a, by simp [h.pending], by simp [h.pending]⟩,
    by simp [h.pending], by simp [h.pending]⟩
  got i a hgot := by simp [h.got] at hgot
  originals_le k := by simp [originals, h.air]
  nodup k := by simp [relayers, h.air]
  known a k _ hin := by
    obtain ⟨i, hi⟩ := hin
    have hgot := (mem_inbox.mp hi).2
    simp [h.got] at hgot
  waiting a k p hp := by simp [h.pending] at hp

theorem Ledger.exec (h : mesh.Ledger) {ops : List (Op ι)} {ess : List (List Event)}
    (hx : Machine.exec (guarded (Gentle mac) (Mesh.step c mac)) mesh ops = some (mesh', ess)) :
    mesh'.Ledger :=
  exec_guarded_invariant (fun hs hgentle hstep => Ledger.step hs hgentle hstep) h hx

end Gentle

end Mesh

theorem Packet.fromBytes_of_toOption {b : Bytes} {p : Packet}
    (h : (Packet.fromBytes b).toOption = some p) : Packet.fromBytes b = .ok p := by
  cases hb : Packet.fromBytes b with
  | ok q =>
    rw [hb] at h
    exact congrArg Except.ok (Option.some.inj h)
  | error err => cases (congrArg Except.toOption hb).symm.trans h

/-- Three nodes in earshot, whose relays give way to `threshold` others. -/
def lineMeshAt (threshold : ℕ) : Mesh (Fin 3) where
  nodes a := { lineNode a with flooder := { (lineNode a).flooder with threshold := threshold } }
  air := []
  got := []
  took _ _ := none

theorem fresh_lineMeshAt (threshold : ℕ) : (lineMeshAt threshold).Fresh :=
  ⟨fun _ => rfl, rfl, rfl, fun _ => rfl⟩

/-- Both neighbours hear the announce, and the second one hears the relay of the first. -/
def lineShared : List (Mesh.Op (Fin 3)) :=
  [.act 0 (.announce ⟨⟨sampleRandom, length_sampleRandom⟩, packetIdOf 1, 100, 100⟩ true),
    .deliver 0 1 (some (-60)) (HandleClock.const 100),
    .deliver 0 2 none (HandleClock.const 100), .act 1 (.relay 101 1)]

end Beachedmesh
