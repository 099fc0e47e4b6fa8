import Beachedmesh.NodeFlooder
import Beachedmesh.Codec

/-!
# The mesh

Any number of nodes and all that they put on the air, as octets. The radio hands
any transmission to any node, at any time and as often as it likes, or never. A
transmission records the one it relays, `got` what was handed to whom, and `took`
the transmission that a node last took up under a key; no step looks at these.
-/
namespace Beachedmesh
open Machine

/-- A transmission. `cause` is the place in the air of the one that its sender relays. -/
structure Emission (ι : Type) where
  sender : ι
  data : Bytes
  cause : Option ℕ

structure Mesh (ι : Type) where
  nodes : ι → Node
  air : List (Emission ι)
  got : List (ℕ × ι)
  took : ι → Key → Option ℕ

namespace Mesh

inductive Op (ι : Type) where
  /-- The `i`-th transmission reaches node `a`. -/
  | deliver (i : ℕ) (a : ι) (rssi : Option ℤ) (clk : HandleClock)
  /-- A program beside the daemon sends a packet under the identity of node `a`. -/
  | originate (a : ι) (pkt : Packet)
  /-- Node `a` does anything but receive. -/
  | act (a : ι) (op : Node.Op)

variable {ι : Type} (c : Crypto) (mac : ι → Mac)

/-- What a program of the node may originate. -/
def Original (n : Node) (pkt : Packet) : Prop :=
  pkt.src = n.identity.nodeId ∧ pkt.version = version ∧
    (pkt.type = typeAnnounce → pkt.hopLimit = n.hopLimit)

instance (n : Node) (pkt : Packet) : Decidable (Original n pkt) :=
  inferInstanceAs (Decidable (_ ∧ _))

/-- The transmission that a relay of `a` goes back to. -/
def causeOf (mesh : Mesh ι) (a : ι) (b : Bytes) : Option ℕ :=
  match Packet.fromBytes b with
  | .ok q => mesh.took a q.key
  | .error _ => none

/-- The frames that `a` sends in one operation. -/
def emissions (mesh : Mesh ι) (a : ι) (op : Node.Op) (bs : List Bytes) : List (Emission ι) :=
  bs.map fun b => ⟨a, b, match op with
    | .relay _ _ => mesh.causeOf a b
    | _ => none⟩

/-- The key that a frame makes `n` take up, if it does. -/
def takesUp (n : Node) (data : Bytes) (rssi : Option ℤ) (clk : HandleClock) : Option Key :=
  match Packet.fromBytes data with
  | .ok pkt =>
    if (n.flooder.onReceive pkt rssi clk.receive clk.draw).1.IsFirst then some pkt.key else none
  | .error _ => none

def originated (mesh : Mesh ι) (a : ι) (b : Bytes) : Mesh ι :=
  { mesh with air := mesh.air ++ [⟨a, b, none⟩] }

/-! ### Where a transmission comes from -/

/-- The `i`-th transmission is the packet `q`. -/
def Carries (mesh : Mesh ι) (i : ℕ) (q : Packet) : Prop :=
  ∃ e, mesh.air[i]? = some e ∧ Packet.fromBytes e.data = .ok q

/-- The packet `q` is the relay of the foreign one that `a` received as the `j`-th
transmission. -/
structure Source (mesh : Mesh ι) (a : ι) (j : ℕ) (q : Packet) : Prop where
  got : (j, a) ∈ mesh.got
  foreign : q.src ≠ (mesh.nodes a).identity.nodeId
  relayed : ∃ p, mesh.Carries j p ∧ p.relayed = some q

/-- How the `i`-th transmission `e` came to carry `q`. -/
inductive Caused (mesh : Mesh ι) (i : ℕ) (e : Emission ι) (q : Packet) : Prop
  | original : e.cause = none → Original (mesh.nodes e.sender) q → Caused mesh i e q
  | relay (j : ℕ) : e.cause = some j → j < i → mesh.Source e.sender j q → Caused mesh i e q

/-- Every transmission has a cause, and so has every relay that waits. -/
structure Causal (mesh : Mesh ι) : Prop where
  own : ∀ a, (mesh.nodes a).flooder.ownId = some (mesh.nodes a).identity.nodeId
  air : ∀ i e, mesh.air[i]? = some e →
    ∃ q, Packet.fromBytes e.data = .ok q ∧ mesh.Caused i e q
  pending : ∀ a k p, (mesh.nodes a).flooder.pending.get? k = some p →
    p.packet.key = k ∧ ∃ j, mesh.took a k = some j ∧ mesh.Source a j p.packet

/-- The `i`-th transmission goes back to the origination `o` over `d` relays. -/
inductive Descends (mesh : Mesh ι) (o : ℕ) : ℕ → ℕ → Prop
  | origin {e : Emission ι} : mesh.air[o]? = some e → e.cause = none → Descends mesh o o 0
  | relay {i j d : ℕ} {e : Emission ι} : mesh.air[i]? = some e → e.cause = some j →
      Descends mesh o j d → Descends mesh o i (d + 1)

/-- Nothing was sent yet and nothing waits to be relayed. -/
structure Fresh (mesh : Mesh ι) : Prop where
  own : ∀ a, (mesh.nodes a).flooder.ownId = some (mesh.nodes a).identity.nodeId
  air : mesh.air = []
  got : mesh.got = []
  pending : ∀ a, (mesh.nodes a).flooder.pending = OrderedDict.empty

variable {mesh mesh' : Mesh ι}

section Fields

variable {a : ι} {b : Bytes}

@[simp] theorem nodes_originated : (mesh.originated a b).nodes = mesh.nodes := rfl

@[simp] theorem air_originated :
    (mesh.originated a b).air = mesh.air ++ [⟨a, b, none⟩] := rfl

@[simp] theorem got_originated : (mesh.originated a b).got = mesh.got := rfl

@[simp] theorem took_originated : (mesh.originated a b).took = mesh.took := rfl

end Fields

/-- Nothing in the air is lost, and nobody changes its identity. -/
structure Extends (mesh mesh' : Mesh ι) : Prop where
  air : ∃ new, mesh'.air = mesh.air ++ new
  got : ∀ g ∈ mesh.got, g ∈ mesh'.got
  config : ∀ a, (mesh.nodes a).SameConfig (mesh'.nodes a)

theorem Extends.refl (mesh : Mesh ι) : mesh.Extends mesh :=
  ⟨⟨[], (List.append_nil _).symm⟩, fun _ hg => hg, fun _ => ⟨rfl, rfl, rfl⟩⟩

theorem Extends.trans {mesh'' : Mesh ι} (h : mesh.Extends mesh') (h' : mesh'.Extends mesh'') :
    mesh.Extends mesh'' := by
  obtain ⟨new, hnew⟩ := h.air
  obtain ⟨new', hnew'⟩ := h'.air
  refine ⟨⟨new ++ new', by rw [hnew', hnew, List.append_assoc]⟩,
    fun g hg => h'.got g (h.got g hg), fun a => ?_⟩
  have h₁ := h.config a
  have h₂ := h'.config a
  exact ⟨h₂.identity_eq.trans h₁.identity_eq, h₂.name_eq.trans h₁.name_eq,
    h₂.hopLimit_eq.trans h₁.hopLimit_eq⟩

/-- Nodes stay apart. -/
theorem Extends.injective (h : mesh.Extends mesh')
    (hids : Function.Injective fun a => (mesh.nodes a).identity.nodeId) :
    Function.Injective fun a => (mesh'.nodes a).identity.nodeId := by
  intro a b hab
  dsimp only at hab
  rw [(h.config a).identity_eq, (h.config b).identity_eq] at hab
  exact hids hab

theorem Extends.getElem? (h : mesh.Extends mesh') {i : ℕ} {e : Emission ι}
    (he : mesh.air[i]? = some e) : mesh'.air[i]? = some e := by
  obtain ⟨new, hair⟩ := h.air
  have hlt := (List.getElem?_eq_some_iff.mp he).1
  rw [hair, List.getElem?_append_left hlt, he]


theorem Carries.mono {i : ℕ} {q : Packet} (hc : mesh.Carries i q) (h : mesh.Extends mesh') :
    mesh'.Carries i q := by
  obtain ⟨e, he, hq⟩ := hc
  exact ⟨e, h.getElem? he, hq⟩

theorem Carries.lt {i : ℕ} {q : Packet} (hc : mesh.Carries i q) : i < mesh.air.length := by
  obtain ⟨e, he, -⟩ := hc
  exact (List.getElem?_eq_some_iff.mp he).1

/-- A transmission carries one packet. -/
theorem Carries.unique {i : ℕ} {p q : Packet} (hp : mesh.Carries i p) (hq : mesh.Carries i q) :
    p = q := by
  obtain ⟨e, he, hp⟩ := hp
  obtain ⟨e', he', hq⟩ := hq
  obtain rfl := Option.some.inj (he.symm.trans he')
  exact Except.ok.inj (hp.symm.trans hq)

theorem Source.mono {a : ι} {j : ℕ} {q : Packet} (hs : mesh.Source a j q)
    (h : mesh.Extends mesh') : mesh'.Source a j q := by
  obtain ⟨p, hp, hr⟩ := hs.relayed
  exact ⟨h.got _ hs.got, (h.config a).identity_eq ▸ hs.foreign, p, hp.mono h, hr⟩

theorem Original.congr {n n' : Node} {q : Packet} (hq : Original n q) (h : n.SameConfig n') :
    Original n' q := by
  obtain ⟨hsrc, hver, hann⟩ := hq
  exact ⟨hsrc.trans (congrArg Identity.nodeId h.identity_eq).symm, hver,
    fun ht => (hann ht).trans h.hopLimit_eq.symm⟩

theorem Caused.mono {i : ℕ} {e : Emission ι} {q : Packet} (hc : mesh.Caused i e q)
    (h : mesh.Extends mesh') : mesh'.Caused i e q := by
  cases hc with
  | original hnone hq => exact .original hnone (hq.congr (h.config e.sender))
  | relay j hj hlt hs => exact .relay j hj hlt (hs.mono h)

/-- An origination is a packet of its sender. -/
theorem Causal.original (h : mesh.Causal) {o i d : ℕ} (hd : mesh.Descends o i d) :
    ∃ e q, mesh.air[o]? = some e ∧ Packet.fromBytes e.data = .ok q ∧ e.cause = none ∧
      Original (mesh.nodes e.sender) q := by
  induction hd with
  | @origin e he hnone =>
    obtain ⟨q, hq, hcause⟩ := h.air o e he
    cases hcause with
    | original _ horig => exact ⟨e, q, he, hq, hnone, horig⟩
    | relay j hj _ _ => cases hnone.symm.trans hj
  | relay _ _ _ ih => exact ih

theorem Fresh.causal (h : mesh.Fresh) : mesh.Causal where
  own := h.own
  air := by simp [h.air]
  pending := by simp [h.pending]

theorem version_of_fromBytes {b : Bytes} {p : Packet} (h : Packet.fromBytes b = .ok p) :
    p.version = version := (Packet.fromBytes_eq_ok_iff.mp h).1

/-- A packet that waits for its relay has the version of the one it relays. -/
theorem Source.version_eq {a : ι} {j : ℕ} {q : Packet} (h : mesh.Source a j q) :
    q.version = version := by
  obtain ⟨p, ⟨e, -, hp⟩, hr⟩ := h.relayed
  have hver := version_of_fromBytes hp
  obtain ⟨-, rfl⟩ := Packet.relayed_eq_some_iff.mp hr
  exact hver

/-- What is new in the air after the transmissions of one step needs a cause. -/
theorem Causal.air_append (h : mesh.Causal) (hext : mesh.Extends mesh') {new : List (Emission ι)}
    (hair : mesh'.air = mesh.air ++ new)
    (hnew : ∀ e ∈ new, ∃ q, Packet.fromBytes e.data = .ok q ∧
      (e.cause = none ∧ Original (mesh.nodes e.sender) q ∨
        ∃ j, e.cause = some j ∧ mesh.Source e.sender j q)) :
    ∀ i e, mesh'.air[i]? = some e →
      ∃ q, Packet.fromBytes e.data = .ok q ∧ mesh'.Caused i e q := by
  intro i e he
  rw [hair] at he
  by_cases hi : i < mesh.air.length
  · rw [List.getElem?_append_left hi] at he
    obtain ⟨q, hq, hcause⟩ := h.air i e he
    exact ⟨q, hq, hcause.mono hext⟩
  · rw [List.getElem?_append_right (not_lt.mp hi)] at he
    obtain ⟨q, hq, hcause⟩ := hnew e (List.mem_of_getElem? he)
    refine ⟨q, hq, ?_⟩
    rcases hcause with ⟨hnone, horig⟩ | ⟨j, hj, hs⟩
    · exact (Caused.original hnone horig : mesh.Caused i e q).mono hext
    · obtain ⟨p, hp, -⟩ := hs.relayed
      have hlt : j < i := by
        have := hp.lt
        omega
      exact (Caused.relay j hj hlt hs : mesh.Caused i e q).mono hext

/-- What one operation of `a` sends: a packet of its own, or relays that waited. -/
theorem Causal.emissions (h : mesh.Causal) {a : ι} {op : Node.Op} {f : Flooder} {bs : List Bytes}
    (ht : Node.Transmits (mesh.nodes a) op f bs) :
    ∀ e ∈ mesh.emissions a op bs, ∃ q, Packet.fromBytes e.data = .ok q ∧
      (e.cause = none ∧ Original (mesh.nodes e.sender) q ∨
        ∃ j, e.cause = some j ∧ mesh.Source e.sender j q) := by
  intro e he
  obtain ⟨b, hb, rfl⟩ := List.mem_map.mp he
  cases ht with
  | @relay now sends _ hpacks =>
    obtain ⟨p, hp, hpb⟩ := hpacks.exists_mem hb
    obtain ⟨k, q, hq, -, rfl⟩ := Flooder.mem_due_iff.mp (List.mem_of_mem_take hp)
    obtain ⟨hkey, j, hj, hs⟩ := h.pending a k q hq
    have hdata := Packet.fromBytes_toBytes hs.version_eq hpb
    refine ⟨q.packet, hdata, Or.inr ⟨j, ?_, hs⟩⟩
    simp only [causeOf, hdata, hkey, hj]
  | @announce d ok b' hb' =>
    have hmem : b = b' := by
      split_ifs at hb with hok
      · exact List.mem_singleton.mp hb
      · simp at hb
    subst hmem
    refine ⟨_, Packet.fromBytes_toBytes rfl hb', Or.inl ⟨rfl, rfl, rfl, fun _ => rfl⟩⟩
  | quiet _ _ => simp at hb

section Step

variable [DecidableEq ι]

def delivered (mesh : Mesh ι) (i : ℕ) (e : Emission ι) (a : ι) (rssi : Option ℤ)
    (clk : HandleClock) (n : Node) : Mesh ι where
  nodes := Function.update mesh.nodes a n
  air := mesh.air
  got := mesh.got ++ [(i, a)]
  took := Function.update mesh.took a fun key =>
    if takesUp (mesh.nodes a) e.data rssi clk = some key then some i else mesh.took a key

def acted (mesh : Mesh ι) (a : ι) (op : Node.Op) (n : Node) (es : List Event) : Mesh ι :=
  { mesh with
    nodes := Function.update mesh.nodes a n
    air := mesh.air ++ mesh.emissions a op (Node.sents es) }

section Fields

variable {i : ℕ} {e : Emission ι} {a x : ι} {rssi : Option ℤ} {clk : HandleClock} {op : Node.Op}
  {n : Node} {es : List Event}

@[simp] theorem nodes_delivered_self : (mesh.delivered i e a rssi clk n).nodes a = n :=
  Function.update_self ..

@[simp] theorem nodes_delivered_of_ne (hx : x ≠ a) :
    (mesh.delivered i e a rssi clk n).nodes x = mesh.nodes x := Function.update_of_ne hx ..

@[simp] theorem air_delivered : (mesh.delivered i e a rssi clk n).air = mesh.air := rfl

@[simp] theorem got_delivered : (mesh.delivered i e a rssi clk n).got = mesh.got ++ [(i, a)] := rfl

@[simp] theorem took_delivered_self {key : Key} :
    (mesh.delivered i e a rssi clk n).took a key =
      if takesUp (mesh.nodes a) e.data rssi clk = some key then some i else mesh.took a key := by
  simp only [delivered, Function.update_self]

@[simp] theorem took_delivered_of_ne (hx : x ≠ a) :
    (mesh.delivered i e a rssi clk n).took x = mesh.took x := Function.update_of_ne hx ..

@[simp] theorem nodes_acted_self : (mesh.acted a op n es).nodes a = n := Function.update_self ..

@[simp] theorem nodes_acted_of_ne (hx : x ≠ a) :
    (mesh.acted a op n es).nodes x = mesh.nodes x := Function.update_of_ne hx ..

@[simp] theorem air_acted :
    (mesh.acted a op n es).air = mesh.air ++ mesh.emissions a op (Node.sents es) := rfl

@[simp] theorem got_acted : (mesh.acted a op n es).got = mesh.got := rfl

@[simp] theorem took_acted : (mesh.acted a op n es).took = mesh.took := rfl

end Fields

/-- One event anywhere in the mesh, `none` where it cannot happen. -/
def step (mesh : Mesh ι) : Op ι → Option (Mesh ι × List Event)
  | .deliver i a rssi clk =>
    (mesh.air[i]?).bind fun e =>
      ((mesh.nodes a).handle c e.data ⟨mac e.sender, rssi⟩ clk).map fun r =>
        (mesh.delivered i e a rssi clk r.1, r.2)
  | .originate a pkt =>
    if Original (mesh.nodes a) pkt then
      pkt.toBytes.map fun b => (mesh.originated a b, [.sent b])
    else none
  | .act a op =>
    if op.isFrame then none
    else ((mesh.nodes a).step c op).map fun r => (mesh.acted a op r.1 r.2, r.2)

/-- Everything a step can do. -/
inductive Stepped (mesh : Mesh ι) : Op ι → Mesh ι → List Event → Prop
  | deliver {i : ℕ} {a : ι} {rssi : Option ℤ} {clk : HandleClock} (e : Emission ι) (n : Node)
      (es : List Event) : mesh.air[i]? = some e →
      (mesh.nodes a).handle c e.data ⟨mac e.sender, rssi⟩ clk = some (n, es) →
      Stepped mesh (.deliver i a rssi clk) (mesh.delivered i e a rssi clk n) es
  | originate {a : ι} {pkt : Packet} (b : Bytes) : Original (mesh.nodes a) pkt →
      pkt.toBytes = some b → Stepped mesh (.originate a pkt) (mesh.originated a b) [.sent b]
  | act {a : ι} {op : Node.Op} (n : Node) (es : List Event) : op.isFrame = false →
      (mesh.nodes a).step c op = some (n, es) → Stepped mesh (.act a op) (mesh.acted a op n es) es

variable {c mac}

theorem step_cases {op : Op ι} {es : List Event} (h : mesh.step c mac op = some (mesh', es)) :
    Stepped c mac mesh op mesh' es := by
  cases op with
  | deliver i a rssi clk =>
    obtain ⟨e, he, h⟩ := Option.bind_eq_some_iff.mp h
    obtain ⟨⟨n, es'⟩, hn, h⟩ := Option.map_eq_some_iff.mp h
    obtain ⟨rfl, rfl⟩ := Prod.mk.inj h
    exact .deliver e n es' he hn
  | originate a pkt =>
    simp only [step] at h
    split_ifs at h with hpkt
    obtain ⟨b, hb, h⟩ := Option.map_eq_some_iff.mp h
    obtain ⟨rfl, rfl⟩ := Prod.mk.inj h
    exact .originate b hpkt hb
  | act a op =>
    simp only [step] at h
    split_ifs at h with hop
    obtain ⟨⟨n, es'⟩, hn, h⟩ := Option.map_eq_some_iff.mp h
    obtain ⟨rfl, rfl⟩ := Prod.mk.inj h
    exact .act n es' (Bool.not_eq_true _ ▸ hop) hn

theorem extends_step {op : Op ι} {es : List Event} (h : mesh.step c mac op = some (mesh', es)) :
    mesh.Extends mesh' := by
  have hupdate {a : ι} {n : Node} (hn : (mesh.nodes a).SameConfig n) (b : ι) :
      (mesh.nodes b).SameConfig (Function.update mesh.nodes a n b) := by
    by_cases hb : b = a
    · rw [hb, Function.update_self]
      exact hn
    · rw [Function.update_of_ne hb]
      exact ⟨rfl, rfl, rfl⟩
  cases step_cases h with
  | @deliver i a rssi clk e n es _ hn =>
    have hstep : (mesh.nodes a).step c (.frame e.data ⟨mac e.sender, rssi⟩ clk) = some (n, es) := hn
    exact ⟨⟨[], (List.append_nil _).symm⟩, fun g hg => List.mem_append_left _ hg,
      hupdate (Node.config_step hstep)⟩
  | originate b _ _ => exact ⟨⟨_, rfl⟩, fun _ hg => hg, fun _ => ⟨rfl, rfl, rfl⟩⟩
  | act n es _ hn => exact ⟨⟨_, rfl⟩, fun _ hg => hg, hupdate (Node.config_step hn)⟩

theorem nodeId_delivered {i : ℕ} {e : Emission ι} {a : ι} {rssi : Option ℤ} {clk : HandleClock}
    {n : Node} {es : List Event}
    (hn : (mesh.nodes a).handle c e.data ⟨mac e.sender, rssi⟩ clk = some (n, es)) (b : ι) :
    ((mesh.delivered i e a rssi clk n).nodes b).identity.nodeId =
      (mesh.nodes b).identity.nodeId := by
  by_cases hb : b = a
  · have hstep : (mesh.nodes a).step c (.frame e.data ⟨mac e.sender, rssi⟩ clk) = some (n, es) := hn
    rw [hb, nodes_delivered_self, (Node.config_step hstep).identity_eq]
  · rw [nodes_delivered_of_ne hb]

theorem nodeId_acted {a : ι} {op : Node.Op} {n : Node} {es : List Event}
    (hn : (mesh.nodes a).step c op = some (n, es)) (b : ι) :
    ((mesh.acted a op n es).nodes b).identity.nodeId = (mesh.nodes b).identity.nodeId := by
  by_cases hb : b = a
  · rw [hb, nodes_acted_self, (Node.config_step hn).identity_eq]
  · rw [nodes_acted_of_ne hb]

/-! ### Causes along a run -/

theorem Causal.deliver (h : mesh.Causal) {i : ℕ} {a : ι} {rssi : Option ℤ} {clk : HandleClock}
    {e : Emission ι} {n : Node} {es : List Event} (he : mesh.air[i]? = some e)
    (hn : (mesh.nodes a).handle c e.data ⟨mac e.sender, rssi⟩ clk = some (n, es))
    (hext : mesh.Extends (mesh.delivered i e a rssi clk n)) :
    (mesh.delivered i e a rssi clk n).Causal := by
  obtain ⟨pkt, hpkt, -⟩ := h.air i e he
  obtain ⟨v, hv⟩ := Node.onReceive_handle hpkt hn
  have hup : takesUp (mesh.nodes a) e.data rssi clk = if v.IsFirst then some pkt.key else none := by
    simp only [takesUp, hpkt, hv]
  have hid := (hext.config a).identity_eq
  rw [nodes_delivered_self] at hid
  refine ⟨fun b => ?_, h.air_append hext (List.append_nil _).symm (by simp), fun b k p hp => ?_⟩
  · by_cases hb : b = a
    · subst hb
      rw [nodes_delivered_self, Flooder.ownId_onReceive hv, h.own, hid]
    · rw [nodes_delivered_of_ne hb]
      exact h.own b
  · by_cases hb : b = a
    · subst hb
      rw [nodes_delivered_self] at hp
      rw [took_delivered_self, hup]
      rcases Flooder.pending_onReceive hv hp with ⟨q, hq, hsame⟩ | ⟨rfl, hnone, hfirst, hrelay⟩
      · obtain ⟨hkey, j, hj, hs⟩ := h.pending b k q hq
        have hne : ¬ (v.IsFirst ∧ pkt.key = k) := by
          rintro ⟨hfirst, rfl⟩
          exact ((Flooder.isFirst_iff hv).mp hfirst).2
            (Or.inl (OrderedDict.mem_keys_iff.mpr ⟨q, hq⟩))
        refine ⟨hsame ▸ hkey, j, ?_, hsame ▸ hs.mono hext⟩
        rw [if_neg ?_, hj]
        split_ifs with hfirst
        · exact fun hk => hne ⟨hfirst, Option.some.inj hk⟩
        · simp
      · refine ⟨Packet.relayed_key hrelay, i, by rw [if_pos hfirst, if_pos rfl], ?_⟩
        have hforeign := ((Flooder.isFirst_iff hv).mp hfirst).1
        refine ⟨by simp, ?_, pkt, ⟨e, he, hpkt⟩, hrelay⟩
        obtain ⟨-, hq⟩ := Packet.relayed_eq_some_iff.mp hrelay
        rw [nodes_delivered_self, hid, hq]
        rw [h.own] at hforeign
        exact fun hsrc => hforeign (congrArg some hsrc.symm)
    · rw [nodes_delivered_of_ne hb] at hp
      rw [took_delivered_of_ne hb]
      obtain ⟨hkey, j, hj, hs⟩ := h.pending b k p hp
      exact ⟨hkey, j, hj, hs.mono hext⟩

theorem Causal.act (h : mesh.Causal) {a : ι} {op : Node.Op} {n : Node} {es : List Event}
    (hop : op.isFrame = false) (hn : (mesh.nodes a).step c op = some (n, es))
    (hext : mesh.Extends (mesh.acted a op n es)) : (mesh.acted a op n es).Causal := by
  have ht := Node.transmits_step hop hn
  have hown := ht.ownId_eq
  refine ⟨fun b => ?_, h.air_append hext rfl (h.emissions ht), fun b k p hp => ?_⟩
  · by_cases hb : b = a
    · subst hb
      have hid := (Node.config_step hn).identity_eq
      rw [nodes_acted_self, hown, h.own, hid]
    · rw [nodes_acted_of_ne hb]
      exact h.own b
  · have hold : (mesh.nodes b).flooder.pending.get? k = some p := by
      by_cases hb : b = a
      · subst hb
        rw [nodes_acted_self] at hp
        exact ht.pending_of_pending hp
      · rwa [nodes_acted_of_ne hb] at hp
    obtain ⟨hkey, j, hj, hs⟩ := h.pending b k p hold
    exact ⟨hkey, j, hj, hs.mono hext⟩

theorem Causal.step (h : mesh.Causal) {op : Op ι} {es : List Event}
    (hx : mesh.step c mac op = some (mesh', es)) : mesh'.Causal := by
  have hext := extends_step hx
  cases step_cases hx with
  | deliver e n es he hn => exact h.deliver he hn hext
  | @originate a pkt b horig hb =>
    refine ⟨h.own, h.air_append hext rfl (fun e he => ?_), fun a k p hp => ?_⟩
    · obtain rfl := List.mem_singleton.mp he
      exact ⟨pkt, Packet.fromBytes_toBytes horig.2.1 hb, Or.inl ⟨rfl, horig⟩⟩
    · obtain ⟨hkey, j, hj, hs⟩ := h.pending a k p hp
      exact ⟨hkey, j, hj, hs.mono hext⟩
  | act n es hop hn => exact h.act hop hn hext

theorem extends_exec {ops : List (Op ι)} {ess : List (List Event)}
    (hx : Machine.exec (Mesh.step c mac) mesh ops = some (mesh', ess)) : mesh.Extends mesh' :=
  exec_invariant (P := fun _ => True) (fun hs _ hstep => hs.trans (extends_step hstep))
    (Extends.refl mesh) (by simp) hx

theorem Causal.exec (h : mesh.Causal) {ops : List (Op ι)} {ess : List (List Event)}
    (hx : Machine.exec (Mesh.step c mac) mesh ops = some (mesh', ess)) : mesh'.Causal :=
  exec_invariant (P := fun _ => True) (fun hs _ hstep => Causal.step hs hstep) h (by simp) hx

end Step

end Mesh

end Beachedmesh
