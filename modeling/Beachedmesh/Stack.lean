import Beachedmesh.Receive
import Beachedmesh.HopCount

/-!
# The whole stack

Each station hands its driver a radiotap header, an 802.11 header and a packet. The driver
takes its own header off, fills in the duration and the sequence control, and the driver of
another station puts a header of its own in front and perhaps the checksum behind. Ambient
traffic arrives in between. What the stations do is a run of the mesh of packets.
-/
namespace Beachedmesh
open Machine PyBytes

/-! ### A frame on its way -/

namespace MonitorLink

variable {head p hdr fcs : Bytes} {m : RadioMeta}

/-- An 802.11 header of type data from a sender, with the BSSID at the third address. -/
structure IsHead (head : Bytes) (mac : Mac) : Prop where
  length_eq : head.length = dot11HdrLen
  fc : head[0]? = some fcData
  mac : (head.drop 10).take 6 = mac.val
  bssid : (head.drop 16).take 6 = bssid.val

/-- Whatever stands in the other fields of its header, a frame of ours is received as it
was sent. -/
theorem recv_head {mac : Mac} (hhead : IsHead head mac) (hhdr : parseRadiotap hdr = .ok (m, []))
    (hp : p ≠ []) (hfcs : fcs.length = if HasFcs m then 4 else 0)
    (hlen : (hdr ++ (head ++ p ++ fcs)).length ≤ recvSize) :
    ∃ lm, recv (some (hdr ++ (head ++ p ++ fcs))) = .ok (some (p, lm)) ∧ lm.toRadioMeta = m ∧
      lm.srcMac = mac := by
  have hhead24 : head.length = 24 := hhead.length_eq
  have hplen : 0 < p.length := List.length_pos_iff.mpr hp
  have hparse : parseRadiotap (hdr ++ (head ++ p ++ fcs)) = .ok (m, head ++ p ++ fcs) :=
    parseRadiotap_append hhdr
  have hcut : splitFcs m (head ++ p ++ fcs) = (head ++ p, fcs) := by
    unfold splitFcs
    split_ifs with hflag
    · rw [if_pos hflag.1] at hfcs
      have hcutlen : (head ++ p ++ fcs).length - 4 = (head ++ p).length := by
        rw [List.length_append, hfcs, Nat.add_sub_cancel]
      rw [hcutlen, List.take_left, List.drop_left]
    · have hno : ¬ HasFcs m := fun h => hflag ⟨h, by simp only [List.length_append]; omega⟩
      rw [if_neg hno] at hfcs
      rw [List.length_eq_zero_iff.mp hfcs, List.append_nil]
  have hlong : ¬ (head ++ p).length ≤ dot11HdrLen := by
    rw [List.length_append, hhead.length_eq]
    omega
  have hindex : index (head ++ p) 0 = .ok fcData := by
    rw [index_append (by omega), index_eq_ok_iff, hhead.fc]
  have hslice (i : ℕ) (hi : i + 6 ≤ 24) :
      ((head ++ p).drop i).take 6 = (head.drop i).take 6 := take_drop_append_left (by omega)
  have hbody : (head ++ p).drop dot11HdrLen = p := by rw [← hhead.length_eq, List.drop_left]
  have hmac := (hslice 10 (by omega)).trans hhead.mac
  have hbssid := (hslice 16 (by omega)).trans hhead.bssid
  unfold recv
  rw [Option.map_some, List.take_of_length_le hlen]
  cases hb : hdr ++ (head ++ p ++ fcs) with
  | nil =>
    have hnil := congrArg List.length hb
    simp only [List.length_append, List.length_nil] at hnil
    omega
  | cons x t =>
    rw [hb] at hparse
    simp only [hparse, hcut, hlong, dif_neg, not_false_eq_true, hindex, ne_eq, not_true_eq_false,
      hbssid, or_self, if_false, hbody]
    exact ⟨_, rfl, rfl, Subtype.ext hmac⟩

/-- The header that the driver sends for one of `_dot11`: mac80211 fills in the duration and
the sequence control. -/
def fill (duration seqControl : {b : Bytes // b.length = 2}) (frame : Bytes) : Bytes :=
  frame.take 2 ++ duration.val ++ (frame.drop 4).take 18 ++ seqControl.val ++ frame.drop 24

/-- The header of `_dot11`, filled in. -/
def filledHead (l : MonitorLink) (duration seqControl : {b : Bytes // b.length = 2}) : Bytes :=
  [fcData, 0] ++ duration.val ++ (broadcastMac.val ++ l.mac.val ++ bssid.val) ++ seqControl.val

theorem fill_dot11 (l : MonitorLink) (duration seqControl : {b : Bytes // b.length = 2})
    (p : Bytes) : fill duration seqControl (l.dot11 ++ p) =
      l.filledHead duration seqControl ++ p := by
  obtain ⟨ifname, ⟨mac, hmac⟩, rt⟩ := l
  match mac, hmac with
  | [_, _, _, _, _, _], _ => simp [fill, dot11, filledHead, broadcastMac, bssid]

theorem isHead_filledHead (l : MonitorLink) (duration seqControl : {b : Bytes // b.length = 2}) :
    IsHead (l.filledHead duration seqControl) l.mac := by
  obtain ⟨ifname, ⟨mac, hmac⟩, rt⟩ := l
  obtain ⟨d, hd⟩ := duration
  obtain ⟨s, hs⟩ := seqControl
  match mac, hmac, d, hd, s, hs with
  | [_, _, _, _, _, _], _, [_, _], _, [_, _], _ => exact ⟨rfl, rfl, rfl, rfl⟩

end MonitorLink

/-! ### Stations -/

/-- What the air and the driver of the receiver make of a frame: they write the two fields,
a radiotap header that the parser accepts as a whole, and the checksum if the header says so. -/
structure Handed where
  hdr : Bytes
  radio : RadioMeta
  duration : {b : Bytes // b.length = 2}
  seqControl : {b : Bytes // b.length = 2}
  fcs : Bytes
  parsed : parseRadiotap hdr = .ok (radio, [])
  fcs_length : fcs.length = if MonitorLink.HasFcs radio then 4 else 0

/-- The datagram at the socket of the receiver, for what a station has handed its driver. -/
def Handed.datagram (h : Handed) (sent : Bytes) : Option Bytes :=
  (parseRadiotap sent).toOption.map fun r =>
    h.hdr ++ (MonitorLink.fill h.duration h.seqControl r.2 ++ h.fcs)

/-- The datagram carries a frame of type data with the BSSID at the third address. -/
def isOurs (datagram : Bytes) : Bool :=
  match parseRadiotap (datagram.take recvSize) with
  | .ok (_, rest) => rest[0]? = some fcData && (rest.drop 16).take 6 = bssid.val
  | .error _ => false

structure Station where
  node : Node
  link : MonitorLink

/-- `got = self.link.recv()` and `self._handle(*got)`. -/
def Node.hear (c : Crypto) (n : Node) (got : Option Bytes) (clk : HandleClock) :
    Option (Node × List Event) :=
  (MonitorLink.recv got).toOption.bind fun r => match r with
    | none => some (n, [])
    | some frame => n.handle c frame.1 (Raising.frameMeta frame.2) clk

/-- The stations and what they have handed to their drivers. -/
structure Ether (ι : Type) where
  stations : ι → Station
  air : List (ι × Bytes)

namespace Ether

inductive Op (ι : Type) where
  /-- The socket of `a` returns the `i`-th frame. -/
  | hear (i : ℕ) (a : ι) (h : Handed) (clk : HandleClock)
  /-- The socket of `a` returns a datagram of somebody else, or times out. -/
  | ambient (a : ι) (got : Option Bytes) (clk : HandleClock)
  | originate (a : ι) (pkt : Packet)
  | act (a : ι) (op : Node.Op)

variable {ι : Type} [DecidableEq ι] (c : Crypto)

def setNode (ether : Ether ι) (a : ι) (n : Node) : Ether ι :=
  { ether with stations := Function.update ether.stations a ⟨n, (ether.stations a).link⟩ }

/-- What `a` hands to its driver. -/
def transmit (ether : Ether ι) (a : ι) (bs : List Bytes) : Ether ι :=
  { ether with air := ether.air ++ bs.map fun b => (a, (ether.stations a).link.send b) }

/-- One event anywhere, `none` where it cannot happen. A datagram fits the buffer of the
socket, and ambient traffic has another type or BSSID. -/
def step (ether : Ether ι) : Op ι → Option (Ether ι × List Event)
  | .hear i a h clk =>
    (ether.air[i]?).bind fun e => (h.datagram e.2).bind fun datagram =>
      if datagram.length ≤ recvSize then
        ((ether.stations a).node.hear c (some datagram) clk).map fun r =>
          (ether.setNode a r.1, r.2)
      else none
  | .ambient a got clk =>
    if got.any isOurs then none
    else ((ether.stations a).node.hear c got clk).map fun r => (ether.setNode a r.1, r.2)
  | .originate a pkt =>
    if Mesh.Original (ether.stations a).node pkt then
      pkt.toBytes.map fun b => (ether.transmit a [b], [.sent b])
    else none
  | .act a op =>
    if op.isFrame then none
    else ((ether.stations a).node.step c op).map fun r =>
      ((ether.transmit a (Node.sents r.2)).setNode a r.1, r.2)

namespace Op

/-- What happens to the packets. -/
def mesh : Op ι → List (Mesh.Op ι)
  | .hear i a h clk => [.deliver i a (h.radio.rssi.map Int8.toInt) clk]
  | .ambient _ _ _ => []
  | .originate a pkt => [.originate a pkt]
  | .act a op => [.act a op]

end Op

/-- The mesh holds the nodes of the stations, and in the air the packets of their frames. -/
structure Refines (mac : ι → Mac) (ether : Ether ι) (mesh : Mesh ι) : Prop where
  nodes : mesh.nodes = fun a => (ether.stations a).node
  air : ether.air = mesh.air.map fun e => (e.sender, (ether.stations e.sender).link.send e.data)
  packed : ∀ e ∈ mesh.air, e.data ≠ []
  mac : ∀ a, (ether.stations a).link.mac = mac a
  radiotap : ∀ a, radiotapTx channel rateMbps = some (ether.stations a).link.rt

end Ether

/-! ### One reception -/

/-- The header of `_radiotap_tx` is one that a driver can take off. -/
theorem parse_radiotapTx {rt : Bytes} (h : radiotapTx channel rateMbps = some rt) :
    ∃ m, parseRadiotap rt = .ok (m, []) := by
  have hrt : (radiotapTx channel rateMbps).map parseRadiotap =
      some (.ok (⟨none, some 11, some 2412, none, none⟩, [])) := by
    decide +kernel
  rw [h] at hrt
  exact ⟨_, Option.some.inj hrt⟩

/-- What a station has sent reaches `_handle` as it was. -/
theorem Node.hear_sent (c : Crypto) (n : Node) {l : MonitorLink}
    (hrt : radiotapTx channel rateMbps = some l.rt) {b datagram : Bytes} (hb : b ≠ []) {h : Handed}
    (hd : h.datagram (l.send b) = some datagram) (hlen : datagram.length ≤ recvSize)
    (clk : HandleClock) : n.hear c (some datagram) clk =
      n.handle c b ⟨l.mac, h.radio.rssi.map Int8.toInt⟩ clk := by
  obtain ⟨m₀, hm₀⟩ := parse_radiotapTx hrt
  have hparse : parseRadiotap (l.send b) = .ok (m₀, l.dot11 ++ b) := by
    rw [MonitorLink.send, List.append_assoc]
    exact parseRadiotap_append hm₀
  rw [Handed.datagram, hparse] at hd
  obtain rfl := Option.some.inj hd
  dsimp only at hlen ⊢
  rw [MonitorLink.fill_dot11] at hlen ⊢
  obtain ⟨lm, hrecv, hradio, hmac⟩ := MonitorLink.recv_head
    (l.isHead_filledHead h.duration h.seqControl) h.parsed hb h.fcs_length hlen
  have hmeta : Raising.frameMeta lm = ⟨l.mac, h.radio.rssi.map Int8.toInt⟩ := by
    rw [Raising.frameMeta, hmac, hradio]
  simp only [hear, hrecv, Except.toOption, Option.bind_some, hmeta]

/-- Other traffic does not reach it. -/
theorem Node.hear_ambient (c : Crypto) (n : Node) {got : Option Bytes} (h : got.any isOurs = false)
    (clk : HandleClock) : n.hear c got clk = some (n, []) := by
  obtain ⟨r, hr, hcases⟩ := MonitorLink.recv_cases got
  cases hcases with
  | nothing => simp only [hear, hr, Except.toOption, Option.bind_some]
  | @packet datagram rest frame fcs m lm hparse hrest _ hlong hfc hbssid _ _ _ _ _ _ =>
    have hours : isOurs datagram = true := by
      have hhead : rest[0]? = some fcData := by
        rw [hrest, List.getElem?_append_left (by omega), hfc]
      have hthird : (rest.drop 16).take 6 = bssid.val := by
        rw [hrest, take_drop_append_left (by simp only [dot11HdrLen] at hlong; omega), hbssid]
      simp [isOurs, hparse, hhead, hthird]
    rw [Option.any_some, hours] at h
    cases h

namespace Ether

variable {ι : Type} {c : Crypto} {mac : ι → Mac} {ether ether' : Ether ι} {mesh : Mesh ι}

/-- What a step hands to the driver is a packet with its header. -/
theorem ne_nil_of_toBytes {pkt : Packet} {b : Bytes} (h : pkt.toBytes = some b) : b ≠ [] := by
  rintro rfl
  have hfit := (Packet.toBytes_isSome_iff pkt).mp (Option.isSome_of_eq_some h)
  obtain ⟨hver, ht, hf, h0, hmax⟩ := hfit
  have hhop : pkt.hopLimit < 65536 := Int.lt_add_one_iff.mpr hmax
  simp [Packet.toBytes, Packet.packB, Packet.packH, hver, ht, hf, h0, hhop, magic] at h

theorem ne_nil_of_sents {n n' : Node} {op : Node.Op} {es : List Event} (hop : op.isFrame = false)
    (h : n.step c op = some (n', es)) : ∀ b ∈ Node.sents es, b ≠ [] := by
  intro b hb
  have ht := Node.transmits_step hop h
  generalize Node.sents es = bs at ht hb
  generalize n'.flooder = f at ht
  cases ht with
  | relay hpacks =>
    obtain ⟨p, -, hpb⟩ := hpacks.exists_mem hb
    exact ne_nil_of_toBytes hpb
  | @announce d ok b' hb' =>
    split_ifs at hb
    · obtain rfl := List.mem_singleton.mp hb
      exact ne_nil_of_toBytes hb'
    · cases hb
  | quiet _ _ => cases hb

theorem Refines.transmit (h : ether.Refines mac mesh) {mesh' : Mesh ι} {a : ι} {bs : List Bytes}
    (hbs : ∀ b ∈ bs, b ≠ []) {new : List (Emission ι)} (hnodes : mesh'.nodes = mesh.nodes)
    (hair : mesh'.air = mesh.air ++ new) (hnew : new.map (fun e => (e.sender, e.data)) =
      bs.map fun b => (a, b)) : (ether.transmit a bs).Refines mac mesh' where
  nodes := hnodes.trans h.nodes
  air := by
    have hsame : new.map (fun e => (e.sender, (ether.stations e.sender).link.send e.data)) =
        bs.map fun b => (a, (ether.stations a).link.send b) := by
      have hmap := congrArg (List.map fun e => (e.1, (ether.stations e.1).link.send e.2)) hnew
      simpa only [List.map_map, Function.comp_def] using hmap
    rw [hair, List.map_append]
    exact congrArg₂ (· ++ ·) h.air hsame.symm
  packed := by
    intro e he
    rw [hair, List.mem_append] at he
    rcases he with hold | hlast
    · exact h.packed e hold
    · have hmem : (e.sender, e.data) ∈ bs.map fun b => (a, b) :=
        hnew ▸ List.mem_map_of_mem (f := fun e => (e.sender, e.data)) hlast
      obtain ⟨b, hb, heq⟩ := List.mem_map.mp hmem
      exact (Prod.mk.inj heq).2 ▸ hbs b hb
  mac := h.mac
  radiotap := h.radiotap

section Step

variable [DecidableEq ι]

@[simp] theorem link_setNode (a b : ι) (n : Node) :
    ((ether.setNode a n).stations b).link = (ether.stations b).link := by
  by_cases hb : b = a
  · simp [setNode, hb]
  · simp [setNode, hb]

theorem node_setNode (a b : ι) (n : Node) : ((ether.setNode a n).stations b).node =
    Function.update (fun b => (ether.stations b).node) a n b := by
  by_cases hb : b = a
  · simp [setNode, hb]
  · simp [setNode, hb]

/-- A step of a node changes neither the frames in the air nor the links. -/
theorem Refines.setNode (h : ether.Refines mac mesh) {mesh' : Mesh ι} {a : ι} {n : Node}
    (hnodes : mesh'.nodes = Function.update mesh.nodes a n) (hair : mesh'.air = mesh.air) :
    (ether.setNode a n).Refines mac mesh' where
  nodes := by
    rw [hnodes, h.nodes]
    exact funext fun b => (node_setNode a b n).symm
  air := by
    simp only [link_setNode, hair]
    exact h.air
  packed := hair ▸ h.packed
  mac b := by rw [link_setNode, h.mac]
  radiotap b := by rw [link_setNode, h.radiotap]

theorem Refines.step (h : ether.Refines mac mesh) {op : Op ι} {es : List Event}
    (hx : ether.step c op = some (ether', es)) : ∃ mesh' ess,
      exec (Mesh.step c mac) mesh op.mesh = some (mesh', ess) ∧ ether'.Refines mac mesh' ∧
        ess.flatten = es := by
  have hone {op' : Mesh.Op ι} {mesh' : Mesh ι} (hstep : mesh.step c mac op' = some (mesh', es)) :
      exec (Mesh.step c mac) mesh [op'] = some (mesh', [es]) :=
    exec_cons_iff.mpr ⟨mesh', es, [], hstep, rfl, rfl⟩
  cases op with
  | hear i a handed clk =>
    obtain ⟨⟨s, buf⟩, hi, hx⟩ := Option.bind_eq_some_iff.mp hx
    obtain ⟨datagram, hd, hx⟩ := Option.bind_eq_some_iff.mp hx
    obtain ⟨hlen, hx⟩ := Option.ite_none_right_eq_some.mp hx
    obtain ⟨⟨n, es'⟩, hn, hx⟩ := Option.map_eq_some_iff.mp hx
    obtain ⟨rfl, rfl⟩ := Prod.mk.inj hx
    rw [h.air, List.getElem?_map, Option.map_eq_some_iff] at hi
    obtain ⟨e, he, heq⟩ := hi
    obtain ⟨rfl, rfl⟩ := Prod.mk.inj heq
    rw [Node.hear_sent c _ (h.radiotap e.sender) (h.packed e (List.mem_of_getElem? he)) hd hlen,
      h.mac] at hn
    have hnode : mesh.nodes a = (ether.stations a).node := congrFun h.nodes a
    refine ⟨mesh.delivered i e a (handed.radio.rssi.map Int8.toInt) clk n, [es'], hone ?_,
      h.setNode rfl rfl, by simp⟩
    simp only [Mesh.step, he, Option.bind_some, hnode, hn, Option.map_some]
  | ambient a got clk =>
    obtain ⟨hours, hx⟩ := Option.ite_none_left_eq_some.mp hx
    rw [Bool.not_eq_true] at hours
    rw [Node.hear_ambient c _ hours] at hx
    obtain ⟨rfl, rfl⟩ := Prod.mk.inj (Option.some.inj hx)
    refine ⟨mesh, [], rfl, h.setNode ?_ rfl, rfl⟩
    have hnode : (ether.stations a).node = mesh.nodes a := (congrFun h.nodes a).symm
    rw [hnode, Function.update_eq_self]
  | originate a pkt =>
    obtain ⟨horig, hx⟩ := Option.ite_none_right_eq_some.mp hx
    obtain ⟨b, hb, hx⟩ := Option.map_eq_some_iff.mp hx
    obtain ⟨rfl, rfl⟩ := Prod.mk.inj hx
    have hnode : mesh.nodes a = (ether.stations a).node := congrFun h.nodes a
    refine ⟨mesh.originated a b, [[.sent b]], hone ?_,
      h.transmit (by simpa using ne_nil_of_toBytes hb) rfl Mesh.air_originated rfl, by simp⟩
    rw [Mesh.step, if_pos (hnode ▸ horig), hb, Option.map_some]
  | act a op =>
    obtain ⟨hop, hx⟩ := Option.ite_none_left_eq_some.mp hx
    rw [Bool.not_eq_true] at hop
    obtain ⟨⟨n, es'⟩, hn, hx⟩ := Option.map_eq_some_iff.mp hx
    obtain ⟨rfl, rfl⟩ := Prod.mk.inj hx
    have hnode : mesh.nodes a = (ether.stations a).node := congrFun h.nodes a
    have hsent : (ether.transmit a (Node.sents es')).Refines mac
        { mesh with air := mesh.air ++ mesh.emissions a op (Node.sents es') } :=
      h.transmit (ne_nil_of_sents hop hn) rfl rfl (by simp [Mesh.emissions])
    refine ⟨mesh.acted a op n es', [es'], hone ?_, hsent.setNode rfl rfl, by simp⟩
    simp only [Mesh.step, hop, hnode, hn, Option.map_some, Bool.false_eq_true, if_false]

end Step

end Ether

/-- What the stations do on the air is a run of the mesh of packets: with arbitrary headers
of the drivers, with or without checksums, and among any ambient traffic, the nodes reach the
states that they reach in the mesh, emit the same, and the frames in the air are its packets
in the frames of their senders. -/
theorem stack_refines_mesh {ι : Type} [DecidableEq ι] (c : Crypto) {ether₀ ether : Ether ι}
    (hair : ether₀.air = [])
    (hrt : ∀ a, radiotapTx channel rateMbps = some (ether₀.stations a).link.rt)
    {ops : List (Ether.Op ι)} {ess : List (List Event)}
    (hx : exec (Ether.step c) ether₀ ops = some (ether, ess)) :
    ∃ mesh ess', exec (Mesh.step c fun a => (ether₀.stations a).link.mac)
        ⟨fun a => (ether₀.stations a).node, [], [], fun _ _ => none⟩
        (ops.flatMap Ether.Op.mesh) = some (mesh, ess') ∧
      (∀ a, mesh.nodes a = (ether.stations a).node) ∧
      (ether.air = mesh.air.map fun e =>
        (e.sender, (ether.stations e.sender).link.send e.data)) ∧
      ess'.flatten = ess.flatten := by
  have h₀ : ether₀.Refines (fun a => (ether₀.stations a).link.mac)
      ⟨fun a => (ether₀.stations a).node, [], [], fun _ _ => none⟩ :=
    ⟨rfl, hair, by simp, fun _ => rfl, hrt⟩
  obtain ⟨mesh, ess', hmesh, hrefines, hflat⟩ :=
    exec_simulation (Mesh.step c fun a => (ether₀.stations a).link.mac)
      (fun hR hstep => Ether.Refines.step hR hstep) h₀ hx
  exact ⟨mesh, ess', hmesh, congrFun hrefines.nodes, hrefines.air, hflat⟩

/-! ### Three stations -/

def lineEther : Ether (Fin 3) where
  stations a := ⟨lineNode a, "wlan1", lineMac a, (radiotapTx channel rateMbps).getD []⟩
  air := []

theorem parse_sampleRadiotap : parseRadiotap sampleRadiotap =
    .ok (⟨some 16, some 11, some 2412, some (-60), none⟩, []) := by
  decide +kernel

theorem length_sampleFcs : ([1, 2, 3, 4] : Bytes).length =
    if MonitorLink.HasFcs ⟨some 16, some 11, some 2412, some (-60), none⟩ then 4 else 0 := by
  decide

def lineHanded : Handed where
  hdr := sampleRadiotap
  radio := ⟨some 16, some 11, some 2412, some (-60), none⟩
  duration := ⟨[0x3a, 0x01], rfl⟩
  seqControl := ⟨[0x10, 0x2b], rfl⟩
  fcs := [1, 2, 3, 4]
  parsed := parse_sampleRadiotap
  fcs_length := length_sampleFcs

/-- A beacon arrives before the announce. -/
theorem stack_refines_mesh_line : ∃ ether ess mesh ess',
    exec (Ether.step lineCrypto) lineEther
      [.act 0 (.announce ⟨⟨sampleRandom, length_sampleRandom⟩, packetIdOf 1, 100, 100⟩ true),
        .ambient 1 (some (sampleRadiotap ++ [0x80, 0])) (HandleClock.const 100),
        .hear 0 1 lineHanded (HandleClock.const 100)] = some (ether, ess) ∧
    exec (Mesh.step lineCrypto lineMac) ⟨lineNode, [], [], fun _ _ => none⟩
      [.act 0 (.announce ⟨⟨sampleRandom, length_sampleRandom⟩, packetIdOf 1, 100, 100⟩ true),
        .deliver 0 1 (some (-60)) (HandleClock.const 100)] = some (mesh, ess') ∧
    (∀ a, mesh.nodes a = (ether.stations a).node) ∧
    (mesh.nodes 1).flooder.pending.size = 1 := by
  have hrun : (exec (Ether.step lineCrypto) lineEther
      [.act 0 (.announce ⟨⟨sampleRandom, length_sampleRandom⟩, packetIdOf 1, 100, 100⟩ true),
        .ambient 1 (some (sampleRadiotap ++ [0x80, 0])) (HandleClock.const 100),
        .hear 0 1 lineHanded (HandleClock.const 100)]).map (fun r =>
      (r.1.stations 1).node.flooder.pending.size) = some 1 := by
    decide +kernel
  obtain ⟨⟨ether, ess⟩, hx, hsize⟩ := Option.map_eq_some_iff.mp hrun
  have hrt (a : Fin 3) : radiotapTx channel rateMbps = some (lineEther.stations a).link.rt := by
    decide +kernel +revert
  obtain ⟨mesh, ess', hmesh, hnodes, -⟩ := stack_refines_mesh lineCrypto rfl hrt hx
  exact ⟨ether, ess, mesh, ess', hx, hmesh, hnodes, hnodes 1 ▸ hsize⟩

end Beachedmesh
