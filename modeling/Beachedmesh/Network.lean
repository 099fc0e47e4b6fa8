import Beachedmesh.Settling
import Beachedmesh.NodeFlooder

/-!
# Many nodes and one destination

Nodes exchange the announces that they really send; the radio loses, delays,
reorders and repeats them at will. `floods`, `heard` and `carried` are a record
kept about the run and influence no step: they number the announces, say which
flood each node is in and since when, and to which one a pending relay belongs.
The assumptions on the timing of the floods are the guards of `step`.
-/
namespace Beachedmesh
open Machine

/-! ### What a node passes on -/

namespace Node

variable {c : Crypto} {n n' : Node} {dest : NodeId}

/-- The packet is an announce of `dest`. -/
def IsAnnounce (dest : NodeId) (p : Packet) : Prop := p.type = typeAnnounce ∧ p.src = dest

instance (dest : NodeId) (p : Packet) : Decidable (IsAnnounce dest p) :=
  inferInstanceAs (Decidable (_ ∧ _))

theorem IsAnnounce.of_relayed {p q : Packet} (h : IsAnnounce dest q) (hr : p.relayed = some q) :
    IsAnnounce dest p := by
  obtain ⟨-, rfl⟩ := Packet.relayed_eq_some_iff.mp hr
  exact h

/-- A step that receives no announce of `dest` makes no relay of one. -/
theorem pending_step {op : Op} {es : List Event} (hx : n.step c op = some (n', es))
    (hann : op.announces dest = false) {key : Key} {p : Pending}
    (hp : n'.flooder.pending.get? key = some p) (hdest : IsAnnounce dest p.packet) :
    ∃ q, n.flooder.pending.get? key = some q ∧ p.packet = q.packet := by
  cases step_cases hx with
  | frame _ =>
    rcases flooder_handle hx with ⟨-, -, hsame⟩ | ⟨pkt, v, hpkt, hr⟩
    · exact ⟨p, hsame ▸ hp, rfl⟩
    · rcases Flooder.pending_onReceive hr hp with hq | ⟨-, -, -, hrelay⟩
      · exact hq
      · obtain ⟨htype, hsrc⟩ := hdest.of_relayed hrelay
        simp [Op.announces, carriesAnnounce, hpkt, htype, hsrc] at hann
  | relay done hr =>
    rw [flooder_relayDue hr, Flooder.get?_pending_due, Option.filter_eq_some_iff] at hp
    exact ⟨p, hp.1, rfl⟩
  | @announce d ok _ _ done ha =>
    rw [announceStep_eq ha, (edge_sendAnnounce n d ok).2] at hp
    exact ⟨p, hp, rfl⟩
  | _ => exact ⟨p, hp, rfl⟩

theorem Relays.relayed {ps : List Packet} {es : List Event} (h : Relays ps es) :
    (∀ p, .announceSent p ∉ es) ∧ ∀ p, .relayed p ∈ es → p ∈ ps := by
  induction h with
  | nil => simp
  | cons _ _ ih =>
    refine ⟨fun q hq => ?_, fun q hq => ?_⟩
    · simp only [List.mem_cons, reduceCtorEq, false_or] at hq
      exact ih.1 q hq
    · simp only [List.mem_cons, reduceCtorEq, false_or, Event.relayed.injEq] at hq ⊢
      exact hq.imp_right (ih.2 q)

/-- Where the announces come from that a step puts in the air. -/
theorem sent_step {op : Op} {es : List Event} (hx : n.step c op = some (n', es)) :
    (∀ p, .announceSent p ∈ es → ∃ d, p = n.announcePacket d) ∧
      ∀ p, .relayed p ∈ es → ∃ key q, n.flooder.pending.get? key = some q ∧ q.packet = p := by
  cases step_cases hx with
  | frame hh => cases hh <;> simp
  | relay done hr =>
    obtain ⟨hnone, hmem⟩ := (relays_sendRelays hr).1.relayed
    refine ⟨fun p hp => absurd hp (hnone p), fun p hp => ?_⟩
    obtain ⟨key, q, hq, -, rfl⟩ := Flooder.mem_due_iff.mp (List.mem_of_mem_take (hmem p hp))
    exact ⟨key, q, hq, rfl⟩
  | @announce d ok _ _ done ha =>
    obtain ⟨-, -, b, -, rfl⟩ := announceStep_cases ha
    cases ok with
    | false => simp
    | true =>
      refine ⟨fun p hp => ⟨d, ?_⟩, by simp⟩
      simpa using hp
  | _ => simp

end Node

/-! ### The network -/

/-- An announce of the destination in the air, with the number of its flood. -/
structure Transmission (ι : Type) where
  sender : ι
  flood : ℕ
  packet : Packet

/-- `heard` is the last flood that reached a node and the time of its first copy there;
`carried` the flood of the copy that a node took up under a key. -/
structure Net (ι : Type) where
  nodes : ι → Node
  air : List (Transmission ι)
  floods : ℕ
  heard : ι → Option (ℕ × ℚ)
  carried : ι → Key → ℕ

namespace Net

inductive Op (ι : Type) where
  /-- The `i`-th transmission reaches node `a`. -/
  | deliver (i : ℕ) (a : ι) (rssi : Option ℤ) (clk : HandleClock)
  /-- Node `a` does anything else: it relays, ticks, announces, hears other frames. -/
  | act (a : ι) (op : Node.Op)

variable {ι : Type} (c : Crypto) (mac : ι → Mac) (x : ι) (dest : NodeId)

/-- Each copy of a flood comes within `FLOOD_GUARD - 1` of the first; the next flood comes
when no settle is pending and more than `FLOOD_GUARD` after the route was written; no
earlier flood comes after it. -/
def Timely (net : Net ι) (a : ι) (f : ℕ) (now : ℚ) : Prop :=
  match net.heard a with
  | none => True
  | some (g, t₁) =>
    f = g ∧ t₁ ≤ now ∧ now ≤ t₁ + (floodGuard - 1) ∨
      g < f ∧ (net.nodes a).routes.pending.get? dest = none ∧
        ((net.nodes a).routes.hot.get? dest).all
          (fun r => decide (floodGuard < now - r.lastSeen)) = true

instance (net : Net ι) (a : ι) (f : ℕ) (now : ℚ) : Decidable (net.Timely dest a f now) :=
  match h : net.heard a with
  | none => isTrue (by rw [Timely, h]; trivial)
  | some (g, t₁) => decidable_of_iff
      (f = g ∧ t₁ ≤ now ∧ now ≤ t₁ + (floodGuard - 1) ∨
        g < f ∧ (net.nodes a).routes.pending.get? dest = none ∧
          ((net.nodes a).routes.hot.get? dest).all
            (fun r => decide (floodGuard < now - r.lastSeen)) = true) (by rw [Timely, h])

/-- No eviction and no expiry takes the route of the destination. -/
def Spares (n n' : Node) : Prop :=
  (n.routes.hot.get? dest).isSome → (n'.routes.hot.get? dest).isSome

instance (n n' : Node) : Decidable (Spares dest n n') := inferInstanceAs (Decidable (_ → _))

/-- The announces of the destination that a step of `a` puts in the air. -/
def transmission (net : Net ι) (a : ι) : Event → Option (Transmission ι)
  | .announceSent p => if Node.IsAnnounce dest p then some ⟨a, net.floods + 1, p⟩ else none
  | .relayed p => if Node.IsAnnounce dest p then some ⟨a, net.carried a p.key, p⟩ else none
  | _ => none

section Step

variable [DecidableEq ι]

def received (net : Net ι) (a : ι) (msg : Transmission ι) (now : ℚ) (n : Node) : Net ι where
  nodes := Function.update net.nodes a n
  air := net.air
  floods := net.floods
  heard := Function.update net.heard a (match net.heard a with
    | none => some (msg.flood, now)
    | some (g, t₁) => if msg.flood = g then some (g, t₁) else some (msg.flood, now))
  carried := Function.update net.carried a fun key =>
    if key = msg.packet.key ∧ (net.nodes a).flooder.pending.get? key = none then msg.flood
    else net.carried a key

def acted (net : Net ι) (a : ι) (op : Node.Op) (n : Node) (es : List Event) : Net ι where
  nodes := Function.update net.nodes a n
  air := net.air ++ es.filterMap (net.transmission dest a)
  floods := match op with
    | .announce _ _ => net.floods + 1
    | _ => net.floods
  heard := net.heard
  carried := net.carried

/-- One event anywhere in the network, `none` where it cannot happen. -/
def step (net : Net ι) : Op ι → Option (Net ι × Unit)
  | .deliver i a rssi clk =>
    (net.air[i]?).bind fun msg =>
      msg.packet.toBytes.bind fun data =>
        if a = x ∨ net.Timely dest a msg.flood clk.now then
          ((net.nodes a).handle c data ⟨mac msg.sender, rssi⟩ clk).map fun r =>
            (net.received a msg clk.now r.1, ())
        else none
  | .act a op =>
    if op.announces dest = false ∧ op.isWarm = false then
      ((net.nodes a).step c op).bind fun r =>
        if Spares dest (net.nodes a) r.1 then some (net.acted dest a op r.1 r.2, ()) else none
    else none

end Step

/-- The MAC that `b` sends to for the destination is that of `a`. -/
def NextHop (net : Net ι) (b a : ι) : Prop :=
  (net.nodes b).routes.heldHop dest = some (mac a)

/-! ### The invariant -/

/-- The hops that a receiver reads off a packet. -/
def hopsAt (hopLimit : ℤ) (p : Packet) : ℕ := (hopLimit - p.hopLimit).toNat

/-- An announce that the destination made, some hops on. -/
structure Flooded (hopLimit : ℤ) (p : Packet) : Prop where
  isAnnounce : Node.IsAnnounce dest p
  version_eq : p.version = version
  le : p.hopLimit ≤ hopLimit
  verifies : ∃ info, parseAnnounce c p.src p.payload = .ok info

/-- Nothing is recorded about the destination. -/
structure Blank (t : RouteTable) : Prop where
  hot : t.hot.get? dest = none
  stored : t.stored dest = none
  pending : t.pending.get? dest = none

variable (hopLimit : ℤ)

/-- A copy of flood `f` over `k` hops was sent from the MAC `m`. -/
def Sent (net : Net ι) (f : ℕ) (m : Mac) (k : ℕ) : Prop :=
  ∃ msg ∈ net.air, msg.flood = f ∧ mac msg.sender = m ∧ hopsAt hopLimit msg.packet = k

/-- Node `a` passes on no flood after `f`, and flood `f` with more than `k` hops only. -/
structure Above (net : Net ι) (a : ι) (f k : ℕ) : Prop where
  air : ∀ msg ∈ net.air, msg.sender = a →
    msg.flood ≤ f ∧ (msg.flood = f → k < hopsAt hopLimit msg.packet)
  flooder : ∀ key p, (net.nodes a).flooder.pending.get? key = some p →
    Node.IsAnnounce dest p.packet → Flooded c dest hopLimit p.packet ∧ p.packet.key = key ∧
      net.carried a key ≤ f ∧ (net.carried a key = f → k < hopsAt hopLimit p.packet)

/-- Node `a` passes nothing on. -/
structure Silent (net : Net ι) (a : ι) : Prop where
  air : ∀ msg ∈ net.air, msg.sender ≠ a
  flooder : ∀ key p, (net.nodes a).flooder.pending.get? key = some p →
    ¬ Node.IsAnnounce dest p.packet

/-- What a node other than the origin has heard, holds and passes on. -/
inductive Hears (net : Net ι) (a : ι) : Prop
  | nothing : net.heard a = none → Blank dest (net.nodes a).routes → net.Silent dest a →
      Hears net a
  | flood (f : ℕ) (t₁ : ℚ) (m : Mac) (k : ℕ) : net.heard a = some (f, t₁) →
      (net.nodes a).routes.Settling dest t₁ m k → net.Sent mac hopLimit f m k →
      net.Above c dest hopLimit a f k → Hears net a

/-- Sound nodes with one hop limit, of which `x` alone has the address of the destination
and signs for it. -/
structure Members (nodes : ι → Node) : Prop where
  sound : ∀ a, (nodes a).Sound
  hopLimit_eq : ∀ a, (nodes a).hopLimit = hopLimit
  origin_iff : ∀ a, (nodes a).identity.nodeId = dest ↔ a = x
  honest : (nodes x).identity.Honest c

structure Inv (net : Net ι) : Prop where
  members : Members c x dest hopLimit net.nodes
  air : ∀ msg ∈ net.air, Flooded c dest hopLimit msg.packet
  blank : Blank dest (net.nodes x).routes
  flooder : ∀ key p, (net.nodes x).flooder.pending.get? key = some p →
    ¬ Node.IsAnnounce dest p.packet
  hears : ∀ a, a ≠ x → net.Hears c mac dest hopLimit a

section Lemmas

variable {c mac x dest hopLimit} {net net' : Net ι} {a b : ι} {f k : ℕ}

/-- A relay is one hop further on. -/
theorem Flooded.relayed {p q : Packet} (h : Flooded c dest hopLimit p) (hr : p.relayed = some q) :
    Flooded c dest hopLimit q ∧ hopsAt hopLimit q = hopsAt hopLimit p + 1 := by
  obtain ⟨-, rfl⟩ := Packet.relayed_eq_some_iff.mp hr
  have hle := h.le
  refine ⟨⟨h.isAnnounce, h.version_eq, ?_, h.verifies⟩, ?_⟩
  · show p.hopLimit - 1 ≤ hopLimit
    omega
  · unfold hopsAt
    dsimp only
    omega

theorem Above.mono (h : net.Above c dest hopLimit a f k) {k' : ℕ} (hk : k' ≤ k) :
    net.Above c dest hopLimit a f k' where
  air msg hm hs := ⟨(h.air msg hm hs).1, fun he => hk.trans_lt ((h.air msg hm hs).2 he)⟩
  flooder key p hp hd := by
    obtain ⟨h₁, h₂, h₃, h₄⟩ := h.flooder key p hp hd
    exact ⟨h₁, h₂, h₃, fun he => hk.trans_lt (h₄ he)⟩

/-- Of a flood that has not reached the node it passes nothing on. -/
theorem Above.later (h : net.Above c dest hopLimit a f k) {g : ℕ} (hg : f < g) (k' : ℕ) :
    net.Above c dest hopLimit a g k' where
  air msg hm hs := by
    have hle := (h.air msg hm hs).1
    exact ⟨by omega, fun he => by omega⟩
  flooder key p hp hd := by
    obtain ⟨h₁, h₂, h₃, -⟩ := h.flooder key p hp hd
    exact ⟨h₁, h₂, by omega, fun he => by omega⟩

theorem Silent.above (h : net.Silent dest a) (f k : ℕ) : net.Above c dest hopLimit a f k where
  air msg hm hs := absurd hs (h.air msg hm)
  flooder key p hp hd := absurd hd (h.flooder key p hp)

/-- What another node does is no concern of `b`, whose transmissions stay. -/
theorem Hears.congr (h : net.Hears c mac dest hopLimit b) (hn : net'.nodes b = net.nodes b)
    (hh : net'.heard b = net.heard b) (hc : net'.carried b = net.carried b)
    (hair : ∀ msg ∈ net.air, msg ∈ net'.air)
    (hnew : ∀ msg ∈ net'.air, msg.sender = b → msg ∈ net.air) :
    net'.Hears c mac dest hopLimit b := by
  cases h with
  | nothing hnone hblank hsilent =>
    refine .nothing (hh.trans hnone) (hn ▸ hblank) ⟨fun msg hm hs => ?_, ?_⟩
    · exact hsilent.air msg (hnew msg hm hs) hs
    · rw [hn]
      exact hsilent.flooder
  | flood f t₁ m k hf hs hsent habove =>
    obtain ⟨msg, hm, hmsg⟩ := hsent
    refine .flood f t₁ m k (hh.trans hf) (hn ▸ hs) ⟨msg, hair msg hm, hmsg⟩ ⟨?_, ?_⟩
    · intro msg hm hsb
      exact habove.air msg (hnew msg hm hsb) hsb
    · rw [hn, hc]
      exact habove.flooder

/-! ### A copy is delivered -/

/-- A verified flood is learned by every node that is not its origin. -/
theorem handle_learns {n n' : Node} (hs : n.Sound) (hown : n.identity.nodeId ≠ dest)
    {data : Bytes} {pkt : Packet} (hpkt : Packet.fromBytes data = .ok pkt)
    (hf : Flooded c dest hopLimit pkt) {m : FrameMeta} {clk : HandleClock} {es : List Event}
    (h : n.handle c data m clk = some (n', es)) :
    (∃ v, n.flooder.onReceive pkt m.rssi clk.receive clk.draw = (v, n'.flooder)) ∧
      ∃ info w, n.routes.learn (n.copyOf pkt m info) clk.now clk.mono = some (w, n'.routes) := by
  cases Node.handle_cases h with
  | garbled e h' => cases hpkt.symm.trans h'
  | packet pkt' v f h' hne _ =>
    cases hpkt.symm.trans h'
    exact absurd hf.isAnnounce.1 hne
  | rejected pkt' v f e h' _ _ _ hbad =>
    cases hpkt.symm.trans h'
    obtain ⟨info, hok⟩ := hf.verifies
    cases hok.symm.trans hbad
  | verified pkt' v f info w t h' _ hr _ _ hl =>
    cases hpkt.symm.trans h'
    exact ⟨⟨v, hr⟩, some info, w, hl⟩
  | own pkt' f h' _ hr =>
    cases hpkt.symm.trans h'
    have hself := (Flooder.own_iff hr).mp rfl
    rw [hs.flooder_own, hf.isAnnounce.2] at hself
    exact absurd (Option.some.inj hself) hown
  | copy pkt' v f w t h' _ hr _ _ hl =>
    cases hpkt.symm.trans h'
    exact ⟨⟨v, hr⟩, none, w, hl⟩

/-- Its origin ignores it. -/
theorem handle_ignores {n n' : Node} (hs : n.Sound) (hown : n.identity.nodeId = dest)
    {data : Bytes} {pkt : Packet} (hpkt : Packet.fromBytes data = .ok pkt)
    (hd : Node.IsAnnounce dest pkt) {m : FrameMeta} {clk : HandleClock} {es : List Event}
    (h : n.handle c data m clk = some (n', es)) :
    n'.routes = n.routes ∧ ∀ key p, n'.flooder.pending.get? key = some p →
      n.flooder.pending.get? key = some p := by
  have hsrc : n.flooder.ownId = some pkt.src := by rw [hs.flooder_own, hd.2, hown]
  cases Node.handle_cases h with
  | garbled e h' => cases hpkt.symm.trans h'
  | packet pkt' v f h' hne _ =>
    cases hpkt.symm.trans h'
    exact absurd hd.1 hne
  | rejected pkt' v f e h' _ hr hv _ =>
    cases hpkt.symm.trans h'
    exact absurd hsrc ((Flooder.isFirst_iff hr).mp hv).1
  | verified pkt' v f info w t h' _ hr hv _ _ =>
    cases hpkt.symm.trans h'
    exact absurd hsrc ((Flooder.isFirst_iff hr).mp hv).1
  | own pkt' f h' _ hr =>
    cases hpkt.symm.trans h'
    refine ⟨rfl, fun key p hp => ?_⟩
    cases Flooder.onReceive_cases hr with
    | own _ =>
      rw [OrderedDict.get?_erase] at hp
      split_ifs at hp
      exact hp
  | copy pkt' v f w t h' _ hr _ hne _ =>
    cases hpkt.symm.trans h'
    exact absurd ((Flooder.own_iff hr).mpr hsrc) hne

variable [DecidableEq ι]

/-- After a copy of flood `f` the node passes it on with more hops than the copy. -/
theorem Above.received {msg : Transmission ι} (h : net.Above c dest hopLimit a msg.flood k)
    (hf : Flooded c dest hopLimit msg.packet) (hk : k ≤ hopsAt hopLimit msg.packet) {now : ℚ}
    {n : Node} {v : Verdict} {rssi : Option ℤ} {clk : ReceiveClock} {draw : ℚ}
    (hr : (net.nodes a).flooder.onReceive msg.packet rssi clk draw = (v, n.flooder)) :
    (net.received a msg now n).Above c dest hopLimit a msg.flood k := by
  refine ⟨h.air, fun key p hp hd => ?_⟩
  simp only [Net.received, Function.update_self] at hp ⊢
  rcases Flooder.pending_onReceive hr hp with ⟨q, hq, heq⟩ | ⟨rfl, hnone, -, hrelay⟩
  · rw [hq, heq]
    rw [heq] at hd
    simpa using h.flooder key q hq hd
  · obtain ⟨hflooded, hhops⟩ := hf.relayed hrelay
    rw [hnone]
    simp only [and_self, if_true, le_refl, forall_const, true_and]
    exact ⟨hflooded, Packet.relayed_key hrelay, by omega⟩

/-- A delivery changes nothing for the other nodes. -/
theorem Hears.received (h : net.Hears c mac dest hopLimit b) (hne : b ≠ a) (msg : Transmission ι)
    (now : ℚ) (n : Node) : (net.received a msg now n).Hears c mac dest hopLimit b :=
  h.congr (Function.update_of_ne hne _ _) (Function.update_of_ne hne _ _)
    (Function.update_of_ne hne _ _) (fun _ hm => hm) (fun _ hm _ => hm)

theorem Members.update {nodes : ι → Node} (h : Members c x dest hopLimit nodes) {n : Node}
    (hs : n.Sound) (hc : (nodes a).SameConfig n) :
    Members c x dest hopLimit (Function.update nodes a n) := by
  have hall (P : Node → Prop) (hP : ∀ b, P (nodes b)) (hn : P n) (b : ι) :
      P (Function.update nodes a n b) := by
    rcases eq_or_ne b a with rfl | hb
    · rwa [Function.update_self]
    · rw [Function.update_of_ne hb]
      exact hP b
  have hid (b : ι) : (Function.update nodes a n b).identity = (nodes b).identity := by
    rcases eq_or_ne b a with rfl | hb
    · rw [Function.update_self, hc.identity_eq]
    · rw [Function.update_of_ne hb]
  have hlimit := hc.hopLimit_eq.trans (h.hopLimit_eq a)
  refine ⟨hall Node.Sound h.sound hs, hall (fun m => m.hopLimit = hopLimit) h.hopLimit_eq hlimit,
    ?_, ?_⟩
  · intro b
    rw [hid]
    exact h.origin_iff b
  · rw [hid]
    exact h.honest

/-- The node that a copy reaches. -/
theorem Hears.deliver (hh : net.Hears c mac dest hopLimit a)
    (hm : Members c x dest hopLimit net.nodes) (ha : a ≠ x) {msg : Transmission ι}
    (hmsg : msg ∈ net.air) (hf : Flooded c dest hopLimit msg.packet) {data : Bytes}
    (hpkt : Packet.fromBytes data = .ok msg.packet) {rssi : Option ℤ} {clk : HandleClock}
    (htime : net.Timely dest a msg.flood clk.now) {n : Node} {es : List Event}
    (hx : (net.nodes a).handle c data ⟨mac msg.sender, rssi⟩ clk = some (n, es)) :
    (net.received a msg clk.now n).Hears c mac dest hopLimit a := by
  have hown : (net.nodes a).identity.nodeId ≠ dest := fun he => ha ((hm.origin_iff a).mp he)
  have hs := hm.sound a
  obtain ⟨⟨v, hr⟩, info, w, hl⟩ := handle_learns hs hown hpkt hf hx
  set t := (net.nodes a).routes with ht
  have hroom : 0 < t.maxHot := hs.routes.room
  have hself : t.ownId ≠ some dest := by
    rw [hs.routes.own_eq]
    exact fun he => hown (Option.some.inj he)
  let copy := (net.nodes a).copyOf msg.packet ⟨mac msg.sender, rssi⟩ info
  have hcopy : copy.nodeId = dest := hf.isAnnounce.2
  have hhops : copy.hops = hopsAt hopLimit msg.packet := by
    show ((net.nodes a).hopLimit - msg.packet.hopLimit).toNat = _
    rw [hm.hopLimit_eq]
    rfl
  have hsent : net.Sent mac hopLimit msg.flood copy.nextHop copy.hops :=
    ⟨msg, hmsg, rfl, rfl, hhops.symm⟩
  have hn : (net.received a msg clk.now n).nodes a = n := Function.update_self ..
  have hheard : (net.received a msg clk.now n).heard a = match net.heard a with
    | none => some (msg.flood, clk.now)
    | some (g, t₁) => if msg.flood = g then some (g, t₁) else some (msg.flood, clk.now) :=
    Function.update_self ..
  -- the first copy of a flood
  have hfirst (hp : t.pending.get? dest = none)
      (hlate : ∀ r, t.hot.get? dest = some r → floodGuard < clk.now - r.lastSeen)
      (hnew : (net.received a msg clk.now n).heard a = some (msg.flood, clk.now))
      (habove : net.Above c dest hopLimit a msg.flood copy.hops) :
      (net.received a msg clk.now n).Hears c mac dest hopLimit a := by
    have hset := RouteTable.settling_first hroom (c := copy) (hcopy ▸ hself) (hcopy ▸ hp)
      (hcopy ▸ hlate) hl
    rw [hcopy] at hset
    refine .flood msg.flood clk.now copy.nextHop copy.hops hnew (hn.symm ▸ hset) hsent ?_
    exact habove.received hf hhops.le hr
  cases hh with
  | nothing hnone hblank hsilent =>
    refine hfirst hblank.pending (fun r hr => ?_) (hheard.trans (by rw [hnone]))
      (hsilent.above _ _)
    cases hblank.hot.symm.trans hr
  | flood f t₁ m k hf' hset hsent' habove =>
    simp only [Net.Timely, hf'] at htime
    rcases htime with ⟨rfl, h₁, h₂⟩ | ⟨hlt, hp, hlate⟩
    · obtain ⟨m', k', hset', heq, hle, hle'⟩ := hset.learn hroom hcopy hself h₁ h₂ hl
      refine .flood msg.flood t₁ m' k' (hheard.trans (by rw [hf']; exact if_pos rfl))
        (hn.symm ▸ hset') ?_ ((habove.mono hle).received hf (hle'.trans_eq hhops) hr)
      rcases heq with ⟨rfl, rfl⟩ | ⟨rfl, rfl⟩
      · exact hsent'
      · exact hsent
    · refine hfirst hp (fun r hr => ?_) (hheard.trans (by rw [hf']; exact if_neg (by omega)))
        (habove.later hlt _)
      rw [← ht, hr] at hlate
      simpa using hlate

theorem Inv.deliver (h : net.Inv c mac x dest hopLimit) {msg : Transmission ι}
    (hmsg : msg ∈ net.air) {data : Bytes} (hdata : msg.packet.toBytes = some data)
    {rssi : Option ℤ} {clk : HandleClock} (htime : a = x ∨ net.Timely dest a msg.flood clk.now)
    {n : Node} {es : List Event}
    (hx : (net.nodes a).handle c data ⟨mac msg.sender, rssi⟩ clk = some (n, es)) :
    (net.received a msg clk.now n).Inv c mac x dest hopLimit := by
  have hf := h.air msg hmsg
  have hpkt := Packet.fromBytes_toBytes hf.version_eq hdata
  have hstep : (net.nodes a).step c (.frame data ⟨mac msg.sender, rssi⟩ clk) = some (n, es) := hx
  have hmembers := h.members.update ((h.members.sound a).handle hx) (Node.config_step hstep)
  by_cases ha : a = x
  · subst ha
    obtain ⟨hroutes, hfl⟩ := handle_ignores (h.members.sound a) ((h.members.origin_iff a).mpr rfl)
      hpkt hf.isAnnounce hx
    have hn : (net.received a msg clk.now n).nodes a = n := Function.update_self ..
    refine ⟨hmembers, h.air, ?_, ?_, fun b hb => (h.hears b hb).received hb msg clk.now n⟩
    · rw [hn, hroutes]
      exact h.blank
    · rw [hn]
      exact fun key p hp => h.flooder key p (hfl key p hp)
  · have hx' : (net.received a msg clk.now n).nodes x = net.nodes x :=
      Function.update_of_ne (Ne.symm ha) _ _
    refine ⟨hmembers, h.air, hx'.symm ▸ h.blank, hx'.symm ▸ h.flooder, fun b hb => ?_⟩
    rcases eq_or_ne b a with rfl | hba
    · exact (h.hears b hb).deliver h.members hb hmsg hf hpkt (htime.resolve_left hb) hx
    · exact (h.hears b hb).received hba msg clk.now n

/-! ### Anything else happens -/

theorem Blank.step {n n' : Node} (h : Blank dest n.routes) {op : Node.Op} {es : List Event}
    (hx : n.step c op = some (n', es)) (hann : op.announces dest = false)
    (hwarm : op.isWarm = false) : Blank dest n'.routes := by
  cases htick : op.isTick with
  | false =>
    have hl := Node.leaves_step hx hann htick hwarm
    refine ⟨Option.eq_none_iff_forall_ne_some.mpr fun e he => ?_,
      Option.eq_none_iff_forall_ne_some.mpr fun b hb => ?_, hl.pending.trans h.pending⟩
    · rcases hl.hot e he with hold | ⟨-, b, hb, -⟩
      · cases h.hot.symm.trans hold
      · cases h.stored.symm.trans hb
    · cases h.stored.symm.trans (hl.stored b hb)
  | true =>
    cases op with
    | tick clk =>
      obtain ⟨t, ht, he⟩ := Option.map_eq_some_iff.mp hx
      obtain ⟨rfl, -⟩ := Prod.mk.inj he
      cases RouteTable.tick_cases ht dest with
      | idle _ hp hh hs =>
        refine ⟨Option.eq_none_iff_forall_ne_some.mpr fun e he => ?_, hs.trans h.stored,
          hp.trans h.pending⟩
        cases h.hot.symm.trans (hh e he)
      | committed q e hq _ _ _ _ _ => cases h.pending.symm.trans hq
    | _ => cases htick

theorem settling_step {n n' : Node} {t₁ : ℚ} {m : Mac}
    (h : n.routes.Settling dest t₁ m k) {op : Node.Op} {es : List Event}
    (hx : n.step c op = some (n', es)) (hann : op.announces dest = false)
    (hwarm : op.isWarm = false) (hspares : Spares dest n n') :
    n'.routes.Settling dest t₁ m k := by
  have hkeep := hspares h.hot_isSome
  cases htick : op.isTick with
  | false => exact h.leaves (Node.leaves_step hx hann htick hwarm) hkeep
  | true =>
    cases op with
    | tick clk =>
      obtain ⟨t, ht, he⟩ := Option.map_eq_some_iff.mp hx
      obtain ⟨rfl, -⟩ := Prod.mk.inj he
      exact h.tick ht hkeep
    | _ => cases htick

/-- What a step puts in the air is an announce of the node, or a relay that was pending. -/
theorem mem_air_acted {op : Node.Op} {n : Node} {es : List Event}
    (hx : (net.nodes a).step c op = some (n, es)) {msg : Transmission ι}
    (hm : msg ∈ (net.acted dest a op n es).air) :
    msg ∈ net.air ∨ msg.sender = a ∧ Node.IsAnnounce dest msg.packet ∧
      ((∃ d, msg.packet = (net.nodes a).announcePacket d) ∨
        ∃ key q, (net.nodes a).flooder.pending.get? key = some q ∧ q.packet = msg.packet ∧
          msg.flood = net.carried a msg.packet.key) := by
  rcases List.mem_append.mp hm with hold | hnew
  · exact Or.inl hold
  · obtain ⟨e, he, htr⟩ := List.mem_filterMap.mp hnew
    obtain ⟨hann, hrel⟩ := Node.sent_step hx
    refine Or.inr ?_
    cases e with
    | announceSent p =>
      simp only [transmission, Option.ite_none_right_eq_some, Option.some.injEq] at htr
      obtain ⟨hd, rfl⟩ := htr
      exact ⟨rfl, hd, Or.inl (hann p he)⟩
    | relayed p =>
      simp only [transmission, Option.ite_none_right_eq_some, Option.some.injEq] at htr
      obtain ⟨hd, rfl⟩ := htr
      obtain ⟨key, q, hq, hp⟩ := hrel p he
      exact ⟨rfl, hd, Or.inr ⟨key, q, hq, hp, rfl⟩⟩
    | _ => cases htr

/-- The node that acts. -/
theorem Hears.act (hh : net.Hears c mac dest hopLimit a)
    (hown : (net.nodes a).identity.nodeId ≠ dest) {op : Node.Op}
    (hann : op.announces dest = false) (hwarm : op.isWarm = false) {n : Node} {es : List Event}
    (hx : (net.nodes a).step c op = some (n, es)) (hspares : Spares dest (net.nodes a) n) :
    (net.acted dest a op n es).Hears c mac dest hopLimit a := by
  have hn : (net.acted dest a op n es).nodes a = n := Function.update_self ..
  -- a transmission of the node that is new is a relay that was pending
  have hnew {msg : Transmission ι} (hm : msg ∈ (net.acted dest a op n es).air) :
      msg ∈ net.air ∨ Node.IsAnnounce dest msg.packet ∧
        ∃ key q, (net.nodes a).flooder.pending.get? key = some q ∧ q.packet = msg.packet ∧
          msg.flood = net.carried a msg.packet.key := by
    rcases mem_air_acted hx hm with hold | ⟨-, hd, ⟨d, hp⟩ | hrelay⟩
    · exact Or.inl hold
    · rw [hp] at hd
      exact absurd hd.2 hown
    · exact Or.inr ⟨hd, hrelay⟩
  cases hh with
  | nothing hnone hblank hsilent =>
    refine .nothing hnone (hn.symm ▸ hblank.step hx hann hwarm) ⟨fun msg hm => ?_, ?_⟩
    · rcases hnew hm with hold | ⟨hd, key, q, hq, hp, -⟩
      · exact hsilent.air msg hold
      · exact absurd (hp ▸ hd) (hsilent.flooder key q hq)
    · rw [hn]
      intro key p hp hd
      obtain ⟨q, hq, heq⟩ := Node.pending_step hx hann hp hd
      exact hsilent.flooder key q hq (heq ▸ hd)
  | flood f t₁ m k hf hset hsent habove =>
    obtain ⟨sent, hsent, hsame⟩ := hsent
    refine .flood f t₁ m k hf (hn.symm ▸ settling_step hset hx hann hwarm hspares)
      ⟨sent, List.mem_append_left _ hsent, hsame⟩ ⟨fun msg hm hsender => ?_, ?_⟩
    · rcases hnew hm with hold | ⟨hd, key, q, hq, hp, hflood⟩
      · exact habove.air msg hold hsender
      · obtain ⟨-, hkey, hle, hlt⟩ := habove.flooder key q hq (hp.symm ▸ hd)
        rw [hp] at hkey hlt
        rw [hflood, hkey]
        exact ⟨hle, hlt⟩
    · rw [hn]
      intro key p hp hd
      obtain ⟨q, hq, heq⟩ := Node.pending_step hx hann hp hd
      rw [heq]
      exact habove.flooder key q hq (heq ▸ hd)

theorem Inv.act (h : net.Inv c mac x dest hopLimit) {op : Node.Op}
    (hann : op.announces dest = false) (hwarm : op.isWarm = false) {n : Node} {es : List Event}
    (hx : (net.nodes a).step c op = some (n, es)) (hspares : Spares dest (net.nodes a) n) :
    (net.acted dest a op n es).Inv c mac x dest hopLimit := by
  have hmembers := h.members.update ((h.members.sound a).step hx) (Node.config_step hx)
  have hair : ∀ msg ∈ (net.acted dest a op n es).air, Flooded c dest hopLimit msg.packet := by
    intro msg hm
    rcases mem_air_acted hx hm with hold | ⟨-, hd, ⟨d, hp⟩ | ⟨key, q, hq, hp, -⟩⟩
    · exact h.air msg hold
    · rw [hp] at hd ⊢
      obtain rfl := (h.members.origin_iff a).mp hd.2
      refine ⟨hd, rfl, (h.members.hopLimit_eq a).le, ?_⟩
      exact ⟨_, parseAnnounce_buildAnnounce h.members.honest d.random.2⟩
    · rcases eq_or_ne a x with rfl | ha
      · exact absurd (hp ▸ hd) (h.flooder key q hq)
      · cases h.hears a ha with
        | nothing _ _ hsilent => exact absurd (hp ▸ hd) (hsilent.flooder key q hq)
        | flood f t₁ m k _ _ _ habove => exact hp ▸ (habove.flooder key q hq (hp.symm ▸ hd)).1
  have hother {b : ι} (hb : b ≠ a) (hh : net.Hears c mac dest hopLimit b) :
      (net.acted dest a op n es).Hears c mac dest hopLimit b := by
    refine hh.congr (Function.update_of_ne hb _ _) rfl rfl
      (fun msg hm => List.mem_append_left _ hm) (fun msg hm hsender => ?_)
    rcases mem_air_acted hx hm with hold | ⟨hsender', -⟩
    · exact hold
    · exact absurd (hsender.symm.trans hsender') hb
  by_cases ha : a = x
  · subst ha
    have hn : (net.acted dest a op n es).nodes a = n := Function.update_self ..
    refine ⟨hmembers, hair, hn.symm ▸ h.blank.step hx hann hwarm, ?_,
      fun b hb => hother hb (h.hears b hb)⟩
    rw [hn]
    intro key p hp hd
    obtain ⟨q, hq, heq⟩ := Node.pending_step hx hann hp hd
    exact h.flooder key q hq (heq ▸ hd)
  · have hx' : (net.acted dest a op n es).nodes x = net.nodes x :=
      Function.update_of_ne (Ne.symm ha) _ _
    refine ⟨hmembers, hair, hx'.symm ▸ h.blank, hx'.symm ▸ h.flooder, fun b hb => ?_⟩
    rcases eq_or_ne b a with rfl | hba
    · exact (h.hears b hb).act (fun he => hb ((h.members.origin_iff b).mp he)) hann hwarm hx hspares
    · exact hother hba (h.hears b hb)

theorem Inv.step (h : net.Inv c mac x dest hopLimit) {op : Op ι} {u : Unit}
    (hx : net.step c mac x dest op = some (net', u)) : net'.Inv c mac x dest hopLimit := by
  cases op with
  | deliver i a rssi clk =>
    obtain ⟨msg, hmsg, hx⟩ := Option.bind_eq_some_iff.mp hx
    obtain ⟨data, hdata, hx⟩ := Option.bind_eq_some_iff.mp hx
    split_ifs at hx with htime
    obtain ⟨⟨n, es⟩, hh, he⟩ := Option.map_eq_some_iff.mp hx
    obtain ⟨rfl, -⟩ := Prod.mk.inj he
    exact h.deliver (List.mem_of_getElem? hmsg) hdata htime hh
  | act a op =>
    simp only [Net.step] at hx
    split_ifs at hx with hop
    obtain ⟨⟨n, es⟩, hn, hx⟩ := Option.bind_eq_some_iff.mp hx
    split_ifs at hx with hspares
    obtain ⟨rfl, -⟩ := Prod.mk.inj (Option.some.inj hx)
    exact h.act hop.1 hop.2 hn hspares

end Lemmas

/-- No flood yet, and no node knows of the destination. -/
structure Fresh (net : Net ι) : Prop where
  members : Members c x dest hopLimit net.nodes
  air : net.air = []
  heard : ∀ a, net.heard a = none
  blank : ∀ a, Blank dest (net.nodes a).routes
  flooder : ∀ a key p, (net.nodes a).flooder.pending.get? key = some p →
    ¬ Node.IsAnnounce dest p.packet

/-- `a` has a route over `k` hops, written by a copy of flood `f`, the last that it heard. -/
def Routed (net : Net ι) (a : ι) (f k : ℕ) : Prop :=
  ∃ r t₁, (net.nodes a).routes.hot.get? dest = some r ∧ r.hops = k ∧
    net.heard a = some (f, t₁) ∧ net.Sent mac hopLimit f r.nextHop k

/-- `a` has a route of a later flood than `b`, or of the same flood over fewer hops. -/
def Nearer (net : Net ι) (b a : ι) : Prop :=
  ∃ f k f' k', net.Routed mac dest hopLimit b f k ∧ net.Routed mac dest hopLimit a f' k' ∧
    (f < f' ∨ f = f' ∧ k' < k)

variable {c mac x dest hopLimit} {net : Net ι}

theorem Fresh.inv (h : net.Fresh c x dest hopLimit) : net.Inv c mac x dest hopLimit where
  members := h.members
  air _ hm := absurd (h.air ▸ hm) List.not_mem_nil
  blank := h.blank x
  flooder := h.flooder x
  hears a _ := .nothing (h.heard a) (h.blank a)
    ⟨fun _ hm => absurd (h.air ▸ hm) List.not_mem_nil, h.flooder a⟩

theorem Routed.unique {a : ι} {f k g l : ℕ} (h : net.Routed mac dest hopLimit a f k)
    (h' : net.Routed mac dest hopLimit a g l) : g = f ∧ l = k := by
  obtain ⟨r, t₁, hr, rfl, hf, -⟩ := h
  obtain ⟨r', t₂, hr', rfl, hg, -⟩ := h'
  obtain rfl := Option.some.inj (hr.symm.trans hr')
  exact ⟨(Prod.mk.inj (Option.some.inj (hf.symm.trans hg))).1.symm, rfl⟩

theorem Nearer.trans {a b d : ι} (h : net.Nearer mac dest hopLimit d b)
    (h' : net.Nearer mac dest hopLimit b a) : net.Nearer mac dest hopLimit d a := by
  obtain ⟨f₁, k₁, f₂, k₂, h₁, h₂, hlt⟩ := h
  obtain ⟨f₂', k₂', f₃, k₃, h₂', h₃, hlt'⟩ := h'
  obtain ⟨rfl, rfl⟩ := h₂.unique h₂'
  exact ⟨f₁, k₁, f₃, k₃, h₁, h₃, by omega⟩

theorem Nearer.irrefl (b : ι) : ¬ net.Nearer mac dest hopLimit b b := by
  rintro ⟨f, k, f', k', h, h', hlt⟩
  obtain ⟨rfl, rfl⟩ := h.unique h'
  omega

/-- With nothing pending, a node has the route it has settled on. -/
theorem Hears.routed {a : ι} (h : net.Hears c mac dest hopLimit a)
    (hp : (net.nodes a).routes.pending.get? dest = none)
    {m : Mac} (hm : (net.nodes a).routes.heldHop dest = some m) :
    ∃ f k, net.Routed mac dest hopLimit a f k ∧ net.Sent mac hopLimit f m k := by
  cases h with
  | nothing _ hblank _ =>
    rw [RouteTable.heldHop, hblank.hot, hblank.stored] at hm
    cases hm
  | flood f t₁ m' k hf hs hsent _ =>
    obtain ⟨r, hr, rfl, rfl⟩ := hs.route hp
    rw [RouteTable.heldHop, hr] at hm
    obtain rfl := Option.some.inj hm
    exact ⟨f, r.hops, ⟨r, t₁, hr, rfl, hf, hsent⟩, hsent⟩

/-- Who sent a copy of flood `f` over `k` hops has a route of a later flood, or a shorter one. -/
theorem Hears.sender {a : ι} (h : net.Hears c mac dest hopLimit a)
    (hp : (net.nodes a).routes.pending.get? dest = none) {msg : Transmission ι}
    (hmsg : msg ∈ net.air) (ha : msg.sender = a) :
    ∃ f k, net.Routed mac dest hopLimit a f k ∧
      (msg.flood < f ∨ msg.flood = f ∧ k < hopsAt hopLimit msg.packet) := by
  cases h with
  | nothing _ _ hsilent => exact absurd ha (hsilent.air msg hmsg)
  | flood f t₁ m k hf hs hsent habove =>
    obtain ⟨hle, hlt⟩ := habove.air msg hmsg ha
    obtain ⟨r, hr, rfl, rfl⟩ := hs.route hp
    refine ⟨f, r.hops, ⟨r, t₁, hr, rfl, hf, hsent⟩, ?_⟩
    rcases Nat.lt_or_eq_of_le hle with hlater | hsame
    · exact Or.inl hlater
    · exact Or.inr ⟨hsame, hlt hsame⟩

/-- The next hop is nearer, unless it is the destination. -/
theorem Inv.nearer (h : net.Inv c mac x dest hopLimit) (hmac : Function.Injective mac)
    (hsettled : ∀ a, (net.nodes a).routes.pending.get? dest = none) {a b : ι}
    (hhop : net.NextHop mac dest b a) (ha : a ≠ x) : net.Nearer mac dest hopLimit b a := by
  have hb : b ≠ x := by
    rintro rfl
    rw [NextHop, RouteTable.heldHop, h.blank.hot, h.blank.stored] at hhop
    cases hhop
  obtain ⟨f, k, hrouted, msg, hmsg, rfl, hsender, rfl⟩ := (h.hears b hb).routed (hsettled b) hhop
  obtain ⟨f', k', hrouted', hlt⟩ := (h.hears a ha).sender (hsettled a) hmsg (hmac hsender)
  exact ⟨_, _, f', k', hrouted, hrouted', hlt⟩

end Net

/-- Take nodes with distinct MACs and one hop limit, no route to the destination, and any
run that keeps to the timing of the floods. In every state without a pending settle for
the destination, a next hop other than the destination has a route of a later flood, or of
the same flood over fewer hops, and following next hops never returns to a node. -/
theorem loop_free {ι : Type} [DecidableEq ι] (c : Crypto) {mac : ι → Mac}
    (hmac : Function.Injective mac) {x : ι} {dest : NodeId} {hopLimit : ℤ} {net₀ net : Net ι}
    (h₀ : net₀.Fresh c x dest hopLimit) {ops : List (Net.Op ι)} {us : List Unit}
    (hx : exec (Net.step c mac x dest) net₀ ops = some (net, us))
    (hsettled : ∀ a, (net.nodes a).routes.pending.get? dest = none) :
    (∀ a b, a ≠ x → net.NextHop mac dest b a → net.Nearer mac dest hopLimit b a) ∧
      ∀ b, ¬ Relation.TransGen (net.NextHop mac dest) b b := by
  have hinv : net.Inv c mac x dest hopLimit :=
    exec_invariant (P := fun _ => True) (fun hs _ hstep => Net.Inv.step hs hstep) h₀.inv
      (by simp) hx
  have hnone (a : ι) : ¬ net.NextHop mac dest x a := by
    intro hhop
    rw [Net.NextHop, RouteTable.heldHop, hinv.blank.hot, hinv.blank.stored] at hhop
    cases hhop
  refine ⟨fun a b ha hhop => hinv.nearer hmac hsettled hhop ha, fun b hcycle => ?_⟩
  -- a path gets nearer with every hop, until it ends at the destination
  have hpath {a : ι} (h : Relation.TransGen (net.NextHop mac dest) b a) :
      a = x ∨ net.Nearer mac dest hopLimit b a := by
    induction h with
    | single hhop => exact or_iff_not_imp_left.mpr (hinv.nearer hmac hsettled hhop)
    | tail _ hhop ih =>
      rcases ih with rfl | hnear
      · exact absurd hhop (hnone _)
      · exact or_iff_not_imp_left.mpr fun ha =>
          hnear.trans (hinv.nearer hmac hsettled hhop ha)
  rcases hpath hcycle with rfl | hnear
  · obtain ⟨a, hhop, -⟩ := Relation.TransGen.head'_iff.mp hcycle
    exact hnone a hhop
  · exact Net.Nearer.irrefl b hnear

/-! ### Three nodes in a line -/

theorem honest_lineIdentity : lineIdentity.Honest lineCrypto where
  nodeId_eq := by decide +kernel
  signPub_len := rfl
  encryptPub_len := rfl
  sign_len := by
    intro m
    unfold lineIdentity
    dsimp only
    split_ifs
    · decide
    · simp
  verify_sign := by
    intro m
    simp [lineCrypto, lineIdentity]

def lineNet : Net (Fin 3) := ⟨lineNode, [], 0, fun _ => none, fun _ _ => 0⟩

theorem fresh_lineNet : lineNet.Fresh lineCrypto 0 sampleNode defaultHopLimit where
  members :=
    { sound := fun a => Node.sound_new _ _ _ _ (some OrderedDict.empty) _ _ _ _
      hopLimit_eq := fun _ => rfl
      origin_iff := by decide +kernel
      honest := honest_lineIdentity }
  air := rfl
  heard _ := rfl
  blank _ := ⟨rfl, rfl, rfl⟩
  flooder _ key p hp := by cases hp

/-- The first node announces, the second hears it and relays, the third hears the relay. -/
def lineRun : List (Net.Op (Fin 3)) :=
  [.act 0 (.announce ⟨⟨sampleRandom, length_sampleRandom⟩, packetIdOf 1, 100, 100⟩ true),
    .deliver 0 1 (some (-60)) (HandleClock.const 100), .act 1 (.relay 101 1),
    .deliver 1 2 (some (-60)) (HandleClock.const 101)]

theorem loop_free_line : ∃ net us,
    exec (Net.step lineCrypto lineMac 0 sampleNode) lineNet lineRun = some (net, us) ∧
    net.NextHop lineMac sampleNode 2 1 ∧ net.NextHop lineMac sampleNode 1 0 ∧
    net.Nearer lineMac sampleNode defaultHopLimit 2 1 ∧
    ∀ b, ¬ Relation.TransGen (net.NextHop lineMac sampleNode) b b := by
  have hrun : (exec (Net.step lineCrypto lineMac 0 sampleNode) lineNet lineRun).map (fun r =>
      ((r.1.nodes 2).routes.heldHop sampleNode, (r.1.nodes 1).routes.heldHop sampleNode,
        decide (∀ a, (r.1.nodes a).routes.pending.get? sampleNode = none))) =
      some (some (lineMac 1), some (lineMac 0), true) := by
    decide +kernel
  obtain ⟨⟨net, us⟩, hx, hrun⟩ := Option.map_eq_some_iff.mp hrun
  simp only [Prod.mk.injEq, decide_eq_true_eq] at hrun
  obtain ⟨h₂, h₁, hsettled⟩ := hrun
  have hmac : Function.Injective lineMac := by
    unfold Function.Injective
    decide +kernel
  obtain ⟨hnear, hfree⟩ := loop_free lineCrypto hmac fresh_lineNet hx hsettled
  exact ⟨net, us, hx, h₂, h₁, hnear 1 2 (by decide) h₂, hfree⟩

end Beachedmesh
