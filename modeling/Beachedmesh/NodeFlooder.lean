import Beachedmesh.Node
import Beachedmesh.Sightings

/-!
# The flooder of a node

What the operations of a node do to its flooder, and which octets they put on the air.
-/
namespace Beachedmesh

namespace Node

variable {c : Crypto} {n n' : Node}

/-! ### The operations of the flooder -/

/-- The operation of the flooder that a step contains. -/
def Op.flood? : Op → Option FloodOp
  | .frame data m clk =>
    match Packet.fromBytes data with
    | .ok pkt => some (.receive pkt m.rssi clk.receive clk.draw)
    | .error _ => none
  | .relay now _ => some (.due now)
  | .announce d _ => some (.announce d.packetId d.seenAt)
  | _ => none

theorem flood?_frame {data : Bytes} {pkt : Packet} (h : Packet.fromBytes data = .ok pkt)
    (m : FrameMeta) (clk : HandleClock) : (Op.frame data m clk).flood? =
      some (.receive pkt m.rssi clk.receive clk.draw) := by
  simp only [Op.flood?, h]

theorem flood?_garbled {data : Bytes} {e : BadFrame} (h : Packet.fromBytes data = .error e)
    (m : FrameMeta) (clk : HandleClock) : (Op.frame data m clk).flood? = none := by
  simp only [Op.flood?, h]

/-- A frame that decodes is classified by the flooder, whatever else becomes of it. -/
theorem onReceive_handle {data : Bytes} {m : FrameMeta} {clk : HandleClock} {es : List Event}
    {pkt : Packet} (hpkt : Packet.fromBytes data = .ok pkt)
    (h : n.handle c data m clk = some (n', es)) :
    ∃ v, n.flooder.onReceive pkt m.rssi clk.receive clk.draw = (v, n'.flooder) := by
  have hsame {pkt' : Packet} (hpkt' : Packet.fromBytes data = .ok pkt') : pkt' = pkt :=
    Except.ok.inj (hpkt'.symm.trans hpkt)
  cases handle_cases h with
  | garbled e he => cases hpkt.symm.trans he
  | packet _ v _ hp _ hr => exact ⟨v, hsame hp ▸ hr⟩
  | rejected _ v _ _ hp _ hr _ _ => exact ⟨v, hsame hp ▸ hr⟩
  | verified _ v _ _ _ _ hp _ hr _ _ _ => exact ⟨v, hsame hp ▸ hr⟩
  | own _ _ hp _ hr => exact ⟨_, hsame hp ▸ hr⟩
  | copy _ v _ _ _ hp _ hr _ _ _ => exact ⟨v, hsame hp ▸ hr⟩

/-- A reception that reaches the flooder is one `on_receive`. -/
theorem flooder_handle {data : Bytes} {m : FrameMeta} {clk : HandleClock} {es : List Event}
    (h : n.handle c data m clk = some (n', es)) :
    (∃ e, Packet.fromBytes data = .error e ∧ n'.flooder = n.flooder) ∨
      ∃ pkt v, Packet.fromBytes data = .ok pkt ∧
        n.flooder.onReceive pkt m.rssi clk.receive clk.draw = (v, n'.flooder) := by
  cases hp : Packet.fromBytes data with
  | error e =>
    rw [handle, hp] at h
    obtain ⟨rfl, -⟩ := Prod.mk.inj (Option.some.inj h)
    exact Or.inl ⟨e, rfl, rfl⟩
  | ok pkt =>
    obtain ⟨v, hr⟩ := onReceive_handle hp h
    exact Or.inr ⟨pkt, v, rfl, hr⟩

theorem flooder_step {op : Op} {es : List Event} (h : n.step c op = some (n', es)) :
    n'.flooder = match op.flood? with
      | some fop => n.flooder.after n.identity.nodeId fop
      | none => n.flooder := by
  cases step_cases h with
  | @frame data m clk _ _ _ =>
    rcases flooder_handle h with ⟨e, hp, hsame⟩ | ⟨pkt, v, hp, hr⟩
    · rw [flood?_garbled hp]
      exact hsame
    · rw [flood?_frame hp]
      exact (congrArg Prod.snd hr).symm
  | relay done hr => exact flooder_relayDue hr
  | @announce d ok _ _ done ha =>
    rw [announceStep_eq ha, (edge_sendAnnounce n d ok).2]
    rfl
  | _ => rfl

/-! ### What a node puts on the air -/

/-- The frames among the events. -/
def sents (es : List Event) : List Bytes :=
  es.filterMap fun e => match e with
    | .sent b => some b
    | _ => none

@[simp] theorem sents_nil : sents [] = [] := rfl

/-- The octets of each packet, in order. -/
def Packs (ps : List Packet) (bs : List Bytes) : Prop :=
  List.Forall₂ (fun p b => p.toBytes = some b) ps bs

theorem Packs.exists_mem {ps : List Packet} {bs : List Bytes} (h : Packs ps bs) {b : Bytes}
    (hb : b ∈ bs) : ∃ p ∈ ps, p.toBytes = some b := by
  induction h with
  | nil => cases hb
  | @cons p b' ps bs hp _ ih =>
    rcases List.mem_cons.mp hb with rfl | hb
    · exact ⟨p, List.mem_cons_self, hp⟩
    · obtain ⟨q, hq, hqb⟩ := ih hb
      exact ⟨q, List.mem_cons_of_mem _ hq, hqb⟩

theorem Relays.packs {ps : List Packet} {es : List Event} (h : Relays ps es) :
    Packs ps (sents es) := by
  induction h with
  | nil => exact .nil
  | cons hb _ ih => exact .cons hb ih

/-- What an operation other than a reception does to the flooder and to the air. -/
inductive Transmits (n : Node) : Op → Flooder → List Bytes → Prop
  | relay {now : ℚ} {sends : ℕ} {bs : List Bytes} : Packs ((n.flooder.due now).1.take sends) bs →
      Transmits n (.relay now sends) (n.flooder.due now).2 bs
  | announce {d : AnnounceDraw} {ok : Bool} {b : Bytes} : (n.announcePacket d).toBytes = some b →
      Transmits n (.announce d ok) (n.flooder.insertSeen (n.announcePacket d).key d.seenAt)
        (if ok then [b] else [])
  | quiet {op : Op} : (∀ now sends, op ≠ .relay now sends) → (∀ d ok, op ≠ .announce d ok) →
      Transmits n op n.flooder []

theorem Transmits.ownId_eq {op : Op} {f : Flooder} {bs : List Bytes} (h : Transmits n op f bs) :
    f.ownId = n.flooder.ownId := by
  cases h <;> rfl

/-- Such an operation makes nothing wait. -/
theorem Transmits.pending_of_pending {op : Op} {f : Flooder} {bs : List Bytes}
    (h : Transmits n op f bs) {k : Key} {p : Pending} (hp : f.pending.get? k = some p) :
    n.flooder.pending.get? k = some p := by
  cases h with
  | relay _ =>
    rw [Flooder.get?_pending_due] at hp
    exact (Option.filter_eq_some_iff.mp hp).1
  | announce _ => exact hp
  | quiet _ _ => exact hp

def Op.isFrame : Op → Bool
  | .frame _ _ _ => true
  | _ => false

theorem transmits_step {op : Op} {es : List Event} (hop : op.isFrame = false)
    (h : n.step c op = some (n', es)) : Transmits n op n'.flooder (sents es) := by
  cases step_cases h with
  | frame _ => cases hop
  | relay done hr =>
    rw [flooder_relayDue hr]
    exact .relay (relays_sendRelays hr).1.packs
  | @announce d ok _ _ done ha =>
    obtain ⟨rfl, -, b, hb, rfl⟩ := announceStep_cases ha
    have hsents : sents (if ok then [.sent b, .announceSent (n.announcePacket d)] else []) =
        if ok then [b] else [] := by
      cases ok <;> rfl
    rw [(edge_sendAnnounce n d ok).2, hsents]
    exact .announce hb
  | tick t _ => exact .quiet (by simp) (by simp)
  | flush mono => exact .quiet (by simp) (by simp)
  | expire mono now nowCold =>
    have hnone : sents ((n.routes.expire now nowCold).1.map .expired) = [] := by
      simp [sents, List.filterMap_map]
    rw [hnone]
    exact .quiet (by simp) (by simp)
  | nextHop a t _ => exact .quiet (by simp) (by simp)
  | warm t _ => exact .quiet (by simp) (by simp)

end Node

end Beachedmesh
