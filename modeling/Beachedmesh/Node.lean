import Beachedmesh.Identity
import Beachedmesh.Flood
import Beachedmesh.Tiers

/-!
# The node

Identity, flooder and routes composed into one poll loop. The radio is the edge
of the model: a received frame is its bytes and its metadata, a transmission is
an event. Every callback of the node is an event too. `none` stands for an
exception other than the radio's own.
-/
namespace Beachedmesh
open Machine

def expireEvery : ℚ := 60
def announceInterval : ℚ := 6 * 3600

/-! ### Names -/

/-- U+FFFD, which stands for what does not decode. -/
def replacementChar : Char := Char.ofNat 0xFFFD

def isContinuation (b : UInt8) : Bool := 0x80 ≤ b.toNat && b.toNat ≤ 0xBF

/-- The second octets that may follow a leading octet of three or four. -/
def secondRange (lead : ℕ) : ℕ × ℕ :=
  if lead = 0xE0 then (0xA0, 0xBF)
  else if lead = 0xED then (0x80, 0x9F)
  else if lead = 0xF0 then (0x90, 0xBF)
  else if lead = 0xF4 then (0x80, 0x8F)
  else (0x80, 0xBF)

/-- The low six bits of the following octets, appended to `n`. -/
def joinBits (n : ℕ) (bs : Bytes) : ℕ := bs.foldl (fun n b => 64 * n + b.toNat % 64) n

/-- Of `count` continuation octets, the first in the range of `lead`: the character
and the rest, or a replacement for the longest prefix that could begin one. -/
def decodeTail (lead bits count : ℕ) (rest : Bytes) : Char × Bytes :=
  let range := secondRange lead
  match rest with
  | [] => (replacementChar, [])
  | b :: tail =>
    if range.1 ≤ b.toNat ∧ b.toNat ≤ range.2 then
      let more := (tail.take (count - 1)).takeWhile isContinuation
      if more.length = count - 1 then
        (Char.ofNat (joinBits bits (b :: more)), tail.drop (count - 1))
      else (replacementChar, tail.drop more.length)
    else (replacementChar, rest)

/-- One character of `bytes.decode(errors="replace")`. -/
def decodeChar (b : UInt8) (rest : Bytes) : Char × Bytes :=
  let lead := b.toNat
  if lead < 0x80 then (Char.ofNat lead, rest)
  else if 0xC2 ≤ lead ∧ lead ≤ 0xDF then decodeTail lead (lead % 32) 1 rest
  else if 0xE0 ≤ lead ∧ lead ≤ 0xEF then decodeTail lead (lead % 16) 2 rest
  else if 0xF0 ≤ lead ∧ lead ≤ 0xF4 then decodeTail lead (lead % 8) 3 rest
  else (replacementChar, rest)

def decodeChars : ℕ → Bytes → List Char
  | 0, _ => []
  | _, [] => []
  | fuel + 1, b :: rest => (decodeChar b rest).1 :: decodeChars fuel (decodeChar b rest).2

/-- `app_data.decode(errors="replace")`. -/
def decodeReplace (bs : Bytes) : String := String.ofList (decodeChars bs.length bs)

/-- `name.encode()`. -/
def encodeName (name : String) : Bytes := name.toUTF8.toList

/-! ### The state -/

/-- The metadata of a received frame, as far as the node reads it. -/
structure FrameMeta where
  srcMac : Mac
  rssi : Option ℤ
  deriving DecidableEq

/-- What the callbacks and the radio see of a node. -/
inductive Event where
  | packet (pkt : Packet) (m : FrameMeta) (verdict : Verdict)
  | announce (info : Option AnnounceInfo) (pkt : Packet) (m : FrameMeta) (route : LearnVerdict)
      (verdict : Verdict)
  | announceRejected (pkt : Packet) (why : BadAnnounce)
  | announceSent (pkt : Packet)
  | relayed (pkt : Packet)
  | expired (nodeId : NodeId)
  | sent (packetBytes : Bytes)
  deriving DecidableEq

structure NodeStats where
  received : ℕ
  announces : ℕ
  rejected : ℕ
  relayed : ℕ
  sent : ℕ
  deriving DecidableEq

structure Node where
  iface : String
  identity : Identity
  name : String
  hopLimit : ℤ
  announceInterval : ℚ
  flooder : Flooder
  routes : RouteTable
  nextAnnounce : ℚ
  lastExpire : ℚ
  started : ℚ
  stats : NodeStats

/-- The draws and readings of one `_handle`: those of `on_receive`, the `time.time()` of
`learn` and the `time.monotonic()` of a flush it forces. -/
structure HandleClock where
  receive : ReceiveClock
  draw : ℚ
  now : ℚ
  mono : ℚ
  deriving DecidableEq

/-- The draws and readings of one `send_announce`. -/
structure AnnounceDraw where
  random : {b : Bytes // b.length = randomLen}
  packetId : PacketId
  seenAt : ℚ
  nextFrom : ℚ
  deriving DecidableEq

/-- An exception that leaves `send_announce`. -/
inductive SendError where
  | structError
  | osError
  deriving DecidableEq

namespace Node

def new (iface : String) (identity : Identity) (announceInterval : ℚ) (name : String)
    (cold : Option ColdStore) (hopLimit : ℤ) (mono started : ℚ) : Node where
  iface := iface
  identity := identity
  name := name
  hopLimit := hopLimit
  announceInterval := announceInterval
  flooder := Flooder.new (some identity.nodeId) relayThreshold none
  routes := RouteTable.new (some identity.nodeId) defaultTtl cold maxHotRoutes
  nextAnnounce := 0
  lastExpire := mono
  started := started
  stats := ⟨0, 0, 0, 0, 0⟩

/-! ### Transmitting -/

def announcePacket (n : Node) (d : AnnounceDraw) : Packet where
  src := n.identity.nodeId
  dst := broadcast
  type := typeAnnounce
  flags := flagNoAck
  hopLimit := n.hopLimit
  packetId := d.packetId
  payload := n.identity.buildAnnounce d.random (encodeName n.name)
  version := Beachedmesh.version

/-- `ok` says whether `link.send` returns or raises `OSError`. The key is in the
cache by then. -/
def sendAnnounce (n : Node) (d : AnnounceDraw) (ok : Bool) :
    Node × Except SendError (Packet × List Event) :=
  let pkt := n.announcePacket d
  let n' := { n with flooder := n.flooder.insertSeen pkt.key d.seenAt }
  match pkt.toBytes with
  | none => (n', .error .structError)
  | some b =>
    if ok then
      ({ n' with
        stats := { n.stats with sent := n.stats.sent + 1, announces := n.stats.announces + 1 }
        nextAnnounce := d.nextFrom + n.announceInterval },
        .ok (pkt, [.sent b, .announceSent pkt]))
    else (n', .error .osError)

/-- Send relays in order while `sends` lasts; the first send past it raises `OSError`. -/
def sendRelays (n : Node) : List Packet → ℕ → Option (Node × List Event × Bool)
  | [], _ => some (n, [], true)
  | p :: ps, sends =>
    p.toBytes.bind fun b =>
      match sends with
      | 0 => some (n, [], false)
      | k + 1 =>
        let stats := { n.stats with relayed := n.stats.relayed + 1, sent := n.stats.sent + 1 }
        (sendRelays { n with stats := stats } ps k).map fun r =>
          (r.1, .sent b :: .relayed p :: r.2.1, r.2.2)

/-- `for relay in self.flooder.due(): ...`. What `due` hands out has left the table,
sent or not. -/
def relayDue (n : Node) (now : ℚ) (sends : ℕ) : Option (Node × List Event × Bool) :=
  sendRelays { n with flooder := (n.flooder.due now).2 } (n.flooder.due now).1 sends

/-! ### Receiving -/

/-- The arguments that `_handle_announce` passes to `learn`. -/
def copyOf (n : Node) (pkt : Packet) (m : FrameMeta) (info : Option AnnounceInfo) : Copy where
  nodeId := pkt.src
  nextHop := m.srcMac
  hops := (n.hopLimit - pkt.hopLimit).toNat
  rssi := m.rssi
  signPub := info.map AnnounceInfo.signPub
  encryptPub := info.map AnnounceInfo.encryptPub
  name := match info with
    | some info => decodeReplace info.appData
    | none => ""

def learnFrom (n : Node) (pkt : Packet) (m : FrameMeta) (info : Option AnnounceInfo)
    (verdict : Verdict) (clk : HandleClock) : Option (Node × List Event) :=
  (n.routes.learn (n.copyOf pkt m info) clk.now clk.mono).map fun r =>
    ({ n with routes := r.2 }, [.announce info pkt m r.1 verdict])

/-- Only a first copy is verified; the others are learned from as they are. -/
def handleAnnounce (c : Crypto) (n : Node) (pkt : Packet) (m : FrameMeta) (verdict : Verdict)
    (clk : HandleClock) : Option (Node × List Event) :=
  if verdict.IsFirst then
    match parseAnnounce c pkt.src pkt.payload with
    | .error e =>
      some ({ n with stats := { n.stats with rejected := n.stats.rejected + 1 } },
        [.announceRejected pkt e])
    | .ok info => n.learnFrom pkt m (some info) verdict clk
  else if verdict = .own then some (n, [])
  else n.learnFrom pkt m none verdict clk

def handle (c : Crypto) (n : Node) (data : Bytes) (m : FrameMeta) (clk : HandleClock) :
    Option (Node × List Event) :=
  match Packet.fromBytes data with
  | .error _ => some (n, [])
  | .ok pkt =>
    let r := n.flooder.onReceive pkt m.rssi clk.receive clk.draw
    let n' := { n with
      flooder := r.2
      stats := { n.stats with received := n.stats.received + 1 } }
    if pkt.type = typeAnnounce then n'.handleAnnounce c pkt m r.1 clk
    else some (n', [.packet pkt m r.1])

/-! ### One turn of the loop, and its parts -/

/-- `now` is the monotonic reading that is compared with `_last_expire`. -/
def expire (n : Node) (mono now nowCold : ℚ) : Node × List Event :=
  ({ n with routes := (n.routes.expire now nowCold).2, lastExpire := mono },
    (n.routes.expire now nowCold).1.map .expired)

/-- What one `poll` meets: what `recv` returned, its readings and draws, and how many
sends succeed. -/
structure Turn where
  got : Option (Bytes × FrameMeta × HandleClock)
  now : ℚ
  due : ℚ
  sends : ℕ
  announce : AnnounceDraw
  announceOk : Bool
  tick : TickClock
  expireNow : ℚ
  expireCold : ℚ

/-- `send_announce` as a step: `none` for a `struct.error`, `false` for an `OSError`. -/
def announceStep (n : Node) (d : AnnounceDraw) (ok : Bool) : Option (Node × List Event × Bool) :=
  match n.sendAnnounce d ok with
  | (_, .error .structError) => none
  | (n', .error .osError) => some (n', [], false)
  | (n', .ok r) => some (n', r.2, true)

def receive (c : Crypto) (n : Node) (got : Option (Bytes × FrameMeta × HandleClock)) :
    Option (Node × List Event) :=
  match got with
  | none => some (n, [])
  | some (data, m, clk) => n.handle c data m clk

/-- The part of `poll` after its sends. -/
def maintain (n : Node) (i : Turn) : Option (Node × List Event) :=
  (n.routes.tick i.tick).map fun t =>
    let n' := { n with routes := t }
    if i.now - n'.lastExpire ≥ expireEvery then n'.expire i.now i.expireNow i.expireCold
    else (n', [])

/-- `poll`, with `false` for the `OSError` of a failed send, which ends the turn. -/
def poll (c : Crypto) (n : Node) (i : Turn) : Option (Node × List Event × Bool) :=
  (n.receive c i.got).bind fun r₀ =>
    (r₀.1.relayDue i.due i.sends).bind fun r₁ =>
      if r₁.2.2 = false then some (r₁.1, r₀.2 ++ r₁.2.1, false)
      else
        (if r₁.1.nextAnnounce ≤ i.now then r₁.1.announceStep i.announce i.announceOk
          else some (r₁.1, [], true)).bind fun r₂ =>
          if r₂.2.2 = false then some (r₂.1, r₀.2 ++ (r₁.2.1 ++ r₂.2.1), false)
          else (r₂.1.maintain i).map fun r₃ =>
            (r₃.1, r₀.2 ++ (r₁.2.1 ++ (r₂.2.1 ++ r₃.2)), true)

/-- The steps that the daemon's start, its turns of the loop and its close are made of. -/
inductive Op where
  | frame (data : Bytes) (m : FrameMeta) (clk : HandleClock)
  | relay (now : ℚ) (sends : ℕ)
  | announce (d : AnnounceDraw) (ok : Bool)
  | tick (clk : TickClock)
  | flush (mono : ℚ)
  | expire (mono now nowCold : ℚ)
  | nextHop (nodeId : NodeId)
  | warm (limit : Option ℕ)
  deriving DecidableEq

def step (c : Crypto) (n : Node) : Op → Option (Node × List Event)
  | .frame data m clk => n.handle c data m clk
  | .relay now sends => (n.relayDue now sends).map fun r => (r.1, r.2.1)
  | .announce d ok => (n.announceStep d ok).map fun r => (r.1, r.2.1)
  | .tick clk => (n.routes.tick clk).map fun t => ({ n with routes := t }, [])
  | .flush mono => some ({ n with routes := n.routes.flush mono }, [])
  | .expire mono now nowCold => some (n.expire mono now nowCold)
  | .nextHop nodeId => (n.routes.nextHop nodeId).map fun r => ({ n with routes := r.2 }, [])
  | .warm limit => (n.routes.warm limit).map fun t => ({ n with routes := t }, [])

/-- Some run leads from `n` to `n'` and emits `es`. -/
def Runs (c : Crypto) (n n' : Node) (es : List Event) : Prop :=
  ∃ ops ess, exec (step c) n ops = some (n', ess) ∧ ess.flatten = es

theorem Runs.nil (c : Crypto) (n : Node) : Runs c n n [] := ⟨[], [], rfl, rfl⟩

theorem Runs.cons {c : Crypto} {n₁ n₂ n₃ : Node} {op : Op} {e₁ e₂ : List Event}
    (h₁ : n₁.step c op = some (n₂, e₁)) (h₂ : Runs c n₂ n₃ e₂) : Runs c n₁ n₃ (e₁ ++ e₂) := by
  obtain ⟨ops, ess, hx, rfl⟩ := h₂
  exact ⟨op :: ops, e₁ :: ess, exec_cons_iff.mpr ⟨n₂, e₁, ess, h₁, hx, rfl⟩, rfl⟩

theorem Runs.trans {c : Crypto} {n₁ n₂ n₃ : Node} {e₁ e₂ : List Event} (h₁ : Runs c n₁ n₂ e₁)
    (h₂ : Runs c n₂ n₃ e₂) : Runs c n₁ n₃ (e₁ ++ e₂) := by
  obtain ⟨ops₁, ess₁, hx₁, rfl⟩ := h₁
  obtain ⟨ops₂, ess₂, hx₂, rfl⟩ := h₂
  exact ⟨ops₁ ++ ops₂, ess₁ ++ ess₂, exec_append_iff.mpr ⟨n₂, ess₁, ess₂, hx₁, hx₂, rfl⟩,
    List.flatten_append⟩

theorem runs_of_step {c : Crypto} {n n' : Node} {op : Op} {es : List Event}
    (h : n.step c op = some (n', es)) : Runs c n n' es := by
  simpa using Runs.cons h (Runs.nil c n')

theorem runs_maintain {c : Crypto} {n n' : Node} {i : Turn} {es : List Event}
    (h : n.maintain i = some (n', es)) : Runs c n n' es := by
  obtain ⟨t, ht, he⟩ := Option.map_eq_some_iff.mp h
  have htick : n.step c (.tick i.tick) = some ({ n with routes := t }, []) := by
    simp only [step, ht, Option.map_some]
  rw [← List.nil_append es]
  refine Runs.cons htick ?_
  dsimp only at he
  split_ifs at he with hdue
  · have hexpire : step c { n with routes := t } (.expire i.now i.expireNow i.expireCold) =
        some (n', es) := congrArg some he
    exact runs_of_step hexpire
  · obtain ⟨rfl, rfl⟩ := Prod.mk.inj he
    exact Runs.nil c _

/-- Everything a turn can do: it ends with the first failed send, or with the upkeep. -/
inductive Polled (c : Crypto) (n : Node) (i : Turn) : Node → List Event → Bool → Prop
  | relayFailed {n₀ n₁ : Node} {e₀ e₁ : List Event} : n.receive c i.got = some (n₀, e₀) →
      n₀.relayDue i.due i.sends = some (n₁, e₁, false) → Polled c n i n₁ (e₀ ++ e₁) false
  | announceFailed {n₀ n₁ n₂ : Node} {e₀ e₁ e₂ : List Event} :
      n.receive c i.got = some (n₀, e₀) → n₀.relayDue i.due i.sends = some (n₁, e₁, true) →
      n₁.announceStep i.announce i.announceOk = some (n₂, e₂, false) →
      Polled c n i n₂ (e₀ ++ (e₁ ++ e₂)) false
  | announced {n₀ n₁ n₂ n₃ : Node} {e₀ e₁ e₂ e₃ : List Event} :
      n.receive c i.got = some (n₀, e₀) → n₀.relayDue i.due i.sends = some (n₁, e₁, true) →
      n₁.announceStep i.announce i.announceOk = some (n₂, e₂, true) →
      n₂.maintain i = some (n₃, e₃) → Polled c n i n₃ (e₀ ++ (e₁ ++ (e₂ ++ e₃))) true
  | quiet {n₀ n₁ n₃ : Node} {e₀ e₁ e₃ : List Event} : n.receive c i.got = some (n₀, e₀) →
      n₀.relayDue i.due i.sends = some (n₁, e₁, true) → n₁.maintain i = some (n₃, e₃) →
      Polled c n i n₃ (e₀ ++ (e₁ ++ e₃)) true

theorem poll_cases {c : Crypto} {n n' : Node} {i : Turn} {es : List Event} {ok : Bool}
    (h : n.poll c i = some (n', es, ok)) : Polled c n i n' es ok := by
  obtain ⟨⟨n₀, e₀⟩, h₀, h⟩ := Option.bind_eq_some_iff.mp h
  obtain ⟨⟨n₁, e₁, ok₁⟩, h₁, h⟩ := Option.bind_eq_some_iff.mp h
  dsimp only at h h₁
  cases ok₁ with
  | false =>
    obtain ⟨rfl, he⟩ := Prod.mk.inj (Option.some.inj h)
    obtain ⟨rfl, rfl⟩ := Prod.mk.inj he
    exact .relayFailed h₀ h₁
  | true =>
    obtain ⟨⟨n₂, e₂, ok₂⟩, h₂, h⟩ := Option.bind_eq_some_iff.mp h
    split_ifs at h₂
    · cases ok₂ with
      | false =>
        obtain ⟨rfl, he⟩ := Prod.mk.inj (Option.some.inj h)
        obtain ⟨rfl, rfl⟩ := Prod.mk.inj he
        exact .announceFailed h₀ h₁ h₂
      | true =>
        obtain ⟨⟨n₃, e₃⟩, h₃, he⟩ := Option.map_eq_some_iff.mp h
        simp only [Prod.mk.injEq] at he
        obtain ⟨rfl, rfl, rfl⟩ := he
        exact .announced h₀ h₁ h₂ h₃
    · simp only [Option.some.injEq, Prod.mk.injEq] at h₂
      obtain ⟨rfl, rfl, rfl⟩ := h₂
      obtain ⟨⟨n₃, e₃⟩, h₃, he⟩ := Option.map_eq_some_iff.mp h
      simp only [List.nil_append, Prod.mk.injEq] at he
      obtain ⟨rfl, rfl, rfl⟩ := he
      exact .quiet h₀ h₁ h₃

theorem runs_receive {c : Crypto} {n n' : Node} {got : Option (Bytes × FrameMeta × HandleClock)}
    {es : List Event} (h : n.receive c got = some (n', es)) : Runs c n n' es := by
  cases got with
  | none =>
    obtain ⟨rfl, rfl⟩ := Prod.mk.inj (Option.some.inj h)
    exact Runs.nil c n
  | some g =>
    have hframe : n.step c (.frame g.1 g.2.1 g.2.2) = some (n', es) := h
    exact runs_of_step hframe

/-- A turn of the loop is a run of its parts. -/
theorem runs_poll {c : Crypto} {n n' : Node} {i : Turn} {es : List Event} {ok : Bool}
    (h : n.poll c i = some (n', es, ok)) : Runs c n n' es := by
  have hrelay {n₀ n₁ : Node} {e₁ : List Event} {done : Bool}
      (h₁ : n₀.relayDue i.due i.sends = some (n₁, e₁, done)) : Runs c n₀ n₁ e₁ := by
    have hone : n₀.step c (.relay i.due i.sends) = some (n₁, e₁) := by
      simp only [step, h₁, Option.map_some]
    exact runs_of_step hone
  have hann {n₁ n₂ : Node} {e₂ : List Event} {done : Bool}
      (h₂ : n₁.announceStep i.announce i.announceOk = some (n₂, e₂, done)) :
      Runs c n₁ n₂ e₂ := by
    have hone : n₁.step c (.announce i.announce i.announceOk) = some (n₂, e₂) := by
      simp only [step, h₂, Option.map_some]
    exact runs_of_step hone
  cases poll_cases h with
  | relayFailed h₀ h₁ => exact (runs_receive h₀).trans (hrelay h₁)
  | announceFailed h₀ h₁ h₂ => exact (runs_receive h₀).trans ((hrelay h₁).trans (hann h₂))
  | announced h₀ h₁ h₂ h₃ =>
    exact (runs_receive h₀).trans ((hrelay h₁).trans ((hann h₂).trans (runs_maintain h₃)))
  | quiet h₀ h₁ h₃ => exact (runs_receive h₀).trans ((hrelay h₁).trans (runs_maintain h₃))

/-! ### What the parts leave alone -/

/-- `n'` has the fixed parts of `n`. -/
structure SameConfig (n n' : Node) : Prop where
  identity_eq : n'.identity = n.identity
  name_eq : n'.name = n.name
  hopLimit_eq : n'.hopLimit = n.hopLimit

/-- A transmission changes neither the fixed parts nor the routes. -/
structure SameEdge (n n' : Node) : Prop extends SameConfig n n' where
  routes_eq : n'.routes = n.routes

theorem SameEdge.refl (n : Node) : SameEdge n n := ⟨⟨rfl, rfl, rfl⟩, rfl⟩

theorem edge_sendAnnounce (n : Node) (d : AnnounceDraw) (ok : Bool) :
    SameEdge n (n.sendAnnounce d ok).1 ∧
      (n.sendAnnounce d ok).1.flooder = n.flooder.insertSeen (n.announcePacket d).key d.seenAt := by
  unfold sendAnnounce
  dsimp only
  split
  · exact ⟨⟨⟨rfl, rfl, rfl⟩, rfl⟩, rfl⟩
  · split_ifs <;> exact ⟨⟨⟨rfl, rfl, rfl⟩, rfl⟩, rfl⟩

/-- Everything `send_announce` can do as a step: packing succeeds, and the send may fail. -/
theorem announceStep_cases {n n' : Node} {d : AnnounceDraw} {ok done : Bool} {es : List Event}
    (h : n.announceStep d ok = some (n', es, done)) :
    n' = (n.sendAnnounce d ok).1 ∧ done = ok ∧ ∃ b, (n.announcePacket d).toBytes = some b ∧
      es = if ok then [.sent b, .announceSent (n.announcePacket d)] else [] := by
  have hsend : n.sendAnnounce d ok = ((n.sendAnnounce d ok).1, (n.sendAnnounce d ok).2) := rfl
  unfold announceStep at h
  cases hb : (n.announcePacket d).toBytes with
  | none =>
    have hnone : (n.sendAnnounce d ok).2 = .error .structError := by
      simp only [sendAnnounce, hb]
    rw [hsend, hnone] at h
    cases h
  | some b =>
    cases ok with
    | false =>
      have hfails : (n.sendAnnounce d false).2 = .error .osError := by
        simp only [sendAnnounce, hb, Bool.false_eq_true, if_false]
      rw [hsend, hfails] at h
      obtain ⟨rfl, he⟩ := Prod.mk.inj (Option.some.inj h)
      obtain ⟨rfl, rfl⟩ := Prod.mk.inj he
      exact ⟨rfl, rfl, b, rfl, rfl⟩
    | true =>
      have hsent : (n.sendAnnounce d true).2 = .ok (n.announcePacket d,
          [.sent b, .announceSent (n.announcePacket d)]) := by
        simp only [sendAnnounce, hb, if_true]
      rw [hsend, hsent] at h
      obtain ⟨rfl, he⟩ := Prod.mk.inj (Option.some.inj h)
      obtain ⟨rfl, rfl⟩ := Prod.mk.inj he
      exact ⟨rfl, rfl, b, rfl, rfl⟩

theorem announceStep_eq {n n' : Node} {d : AnnounceDraw} {ok done : Bool} {es : List Event}
    (h : n.announceStep d ok = some (n', es, done)) : n' = (n.sendAnnounce d ok).1 :=
  (announceStep_cases h).1

theorem edge_announceStep {n n' : Node} {d : AnnounceDraw} {ok done : Bool} {es : List Event}
    (h : n.announceStep d ok = some (n', es, done)) : SameEdge n n' :=
  announceStep_eq h ▸ (edge_sendAnnounce n d ok).1

/-- The events of relays that go out one after the other. -/
inductive Relays : List Packet → List Event → Prop
  | nil : Relays [] []
  | cons {p : Packet} {b : Bytes} {ps : List Packet} {es : List Event} : p.toBytes = some b →
      Relays ps es → Relays (p :: ps) (.sent b :: .relayed p :: es)

/-- As many relays go out as sends succeed, and of the node only the counters change. -/
theorem relays_sendRelays {n n' : Node} {ps : List Packet} {sends : ℕ} {es : List Event}
    {done : Bool} (h : n.sendRelays ps sends = some (n', es, done)) :
    Relays (ps.take sends) es ∧ (done = true ↔ ps.length ≤ sends) ∧
      ∃ stats, n' = { n with stats := stats } := by
  induction ps generalizing n sends es with
  | nil =>
    simp only [sendRelays, Option.some.injEq, Prod.mk.injEq] at h
    obtain ⟨rfl, rfl, rfl⟩ := h
    rw [List.take_nil]
    exact ⟨.nil, by simp, n.stats, rfl⟩
  | cons p ps ih =>
    unfold sendRelays at h
    obtain ⟨b, hb, h⟩ := Option.bind_eq_some_iff.mp h
    cases sends with
    | zero =>
      simp only [Option.some.injEq, Prod.mk.injEq] at h
      obtain ⟨rfl, rfl, rfl⟩ := h
      exact ⟨.nil, by simp, n.stats, rfl⟩
    | succ k =>
      obtain ⟨⟨u, es', done'⟩, hu, he⟩ := Option.map_eq_some_iff.mp h
      simp only [Prod.mk.injEq] at he
      obtain ⟨rfl, rfl, rfl⟩ := he
      obtain ⟨hrelays, hdone, stats, rfl⟩ := ih hu
      refine ⟨.cons hb hrelays, hdone.trans ?_, stats, rfl⟩
      rw [List.length_cons, Nat.succ_le_succ_iff]

theorem edge_relayDue {n n' : Node} {now : ℚ} {sends : ℕ} {es : List Event} {done : Bool}
    (h : n.relayDue now sends = some (n', es, done)) : SameEdge n n' := by
  obtain ⟨-, -, stats, rfl⟩ := relays_sendRelays h
  exact ⟨⟨rfl, rfl, rfl⟩, rfl⟩

theorem flooder_relayDue {n n' : Node} {now : ℚ} {sends : ℕ} {es : List Event} {done : Bool}
    (h : n.relayDue now sends = some (n', es, done)) : n'.flooder = (n.flooder.due now).2 := by
  obtain ⟨-, -, stats, rfl⟩ := relays_sendRelays h
  rfl

/-- Everything `_handle` can do. -/
inductive Handled (c : Crypto) (n : Node) (data : Bytes) (m : FrameMeta) (clk : HandleClock) :
    Node → List Event → Prop
  | garbled (e : BadFrame) : Packet.fromBytes data = .error e → Handled c n data m clk n []
  | packet (pkt : Packet) (v : Verdict) (f : Flooder) : Packet.fromBytes data = .ok pkt →
      pkt.type ≠ typeAnnounce → n.flooder.onReceive pkt m.rssi clk.receive clk.draw = (v, f) →
      Handled c n data m clk { n with
        flooder := f
        stats := { n.stats with received := n.stats.received + 1 } } [.packet pkt m v]
  | rejected (pkt : Packet) (v : Verdict) (f : Flooder) (e : BadAnnounce) :
      Packet.fromBytes data = .ok pkt → pkt.type = typeAnnounce →
      n.flooder.onReceive pkt m.rssi clk.receive clk.draw = (v, f) → v.IsFirst →
      parseAnnounce c pkt.src pkt.payload = .error e →
      Handled c n data m clk { n with
        flooder := f
        stats := { n.stats with
          received := n.stats.received + 1
          rejected := n.stats.rejected + 1 } } [.announceRejected pkt e]
  | verified (pkt : Packet) (v : Verdict) (f : Flooder) (info : AnnounceInfo) (w : LearnVerdict)
      (t : RouteTable) : Packet.fromBytes data = .ok pkt → pkt.type = typeAnnounce →
      n.flooder.onReceive pkt m.rssi clk.receive clk.draw = (v, f) → v.IsFirst →
      parseAnnounce c pkt.src pkt.payload = .ok info →
      n.routes.learn (n.copyOf pkt m (some info)) clk.now clk.mono = some (w, t) →
      Handled c n data m clk { n with
        flooder := f
        routes := t
        stats := { n.stats with received := n.stats.received + 1 } }
        [.announce (some info) pkt m w v]
  | own (pkt : Packet) (f : Flooder) : Packet.fromBytes data = .ok pkt → pkt.type = typeAnnounce →
      n.flooder.onReceive pkt m.rssi clk.receive clk.draw = (.own, f) →
      Handled c n data m clk { n with
        flooder := f
        stats := { n.stats with received := n.stats.received + 1 } } []
  | copy (pkt : Packet) (v : Verdict) (f : Flooder) (w : LearnVerdict) (t : RouteTable) :
      Packet.fromBytes data = .ok pkt → pkt.type = typeAnnounce →
      n.flooder.onReceive pkt m.rssi clk.receive clk.draw = (v, f) → ¬ v.IsFirst → v ≠ .own →
      n.routes.learn (n.copyOf pkt m none) clk.now clk.mono = some (w, t) →
      Handled c n data m clk { n with
        flooder := f
        routes := t
        stats := { n.stats with received := n.stats.received + 1 } }
        [.announce none pkt m w v]

theorem handle_cases {c : Crypto} {n n' : Node} {data : Bytes} {m : FrameMeta}
    {clk : HandleClock} {es : List Event} (h : n.handle c data m clk = some (n', es)) :
    Handled c n data m clk n' es := by
  unfold handle at h
  cases hp : Packet.fromBytes data with
  | error e =>
    rw [hp] at h
    obtain ⟨rfl, rfl⟩ := Prod.mk.inj (Option.some.inj h)
    exact .garbled e hp
  | ok pkt =>
    rw [hp] at h
    rcases hr : n.flooder.onReceive pkt m.rssi clk.receive clk.draw with ⟨v, f⟩
    simp only [hr] at h
    split_ifs at h with ht
    · unfold handleAnnounce at h
      split_ifs at h with hv hown
      · cases hpa : parseAnnounce c pkt.src pkt.payload with
        | error e =>
          simp only [hpa] at h
          obtain ⟨rfl, rfl⟩ := Prod.mk.inj (Option.some.inj h)
          exact .rejected pkt v f e hp ht hr hv hpa
        | ok info =>
          simp only [hpa] at h
          obtain ⟨⟨w, t⟩, hl, he⟩ := Option.map_eq_some_iff.mp h
          obtain ⟨rfl, rfl⟩ := Prod.mk.inj he
          exact .verified pkt v f info w t hp ht hr hv hpa hl
      · obtain ⟨rfl, rfl⟩ := Prod.mk.inj (Option.some.inj h)
        exact .own pkt f hp ht (hown ▸ hr)
      · obtain ⟨⟨w, t⟩, hl, he⟩ := Option.map_eq_some_iff.mp h
        obtain ⟨rfl, rfl⟩ := Prod.mk.inj he
        exact .copy pkt v f w t hp ht hr hv hown hl
    · obtain ⟨rfl, rfl⟩ := Prod.mk.inj (Option.some.inj h)
      exact .packet pkt v f hp ht hr

/-- Everything a step can do. -/
inductive Stepped (c : Crypto) (n : Node) : Op → Node → List Event → Prop
  | frame {data : Bytes} {m : FrameMeta} {clk : HandleClock} {n' : Node} {es : List Event} :
      Handled c n data m clk n' es → Stepped c n (.frame data m clk) n' es
  | relay {now : ℚ} {sends : ℕ} {n' : Node} {es : List Event} (done : Bool) :
      n.relayDue now sends = some (n', es, done) → Stepped c n (.relay now sends) n' es
  | announce {d : AnnounceDraw} {ok : Bool} {n' : Node} {es : List Event} (done : Bool) :
      n.announceStep d ok = some (n', es, done) → Stepped c n (.announce d ok) n' es
  | tick {clk : TickClock} (t : RouteTable) : n.routes.tick clk = some t →
      Stepped c n (.tick clk) { n with routes := t } []
  | flush (mono : ℚ) : Stepped c n (.flush mono) { n with routes := n.routes.flush mono } []
  | expire (mono now nowCold : ℚ) : Stepped c n (.expire mono now nowCold)
      { n with routes := (n.routes.expire now nowCold).2, lastExpire := mono }
      ((n.routes.expire now nowCold).1.map .expired)
  | nextHop {nodeId : NodeId} (a : Option Mac) (t : RouteTable) :
      n.routes.nextHop nodeId = some (a, t) →
      Stepped c n (.nextHop nodeId) { n with routes := t } []
  | warm {limit : Option ℕ} (t : RouteTable) : n.routes.warm limit = some t →
      Stepped c n (.warm limit) { n with routes := t } []

theorem step_cases {c : Crypto} {n n' : Node} {op : Op} {es : List Event}
    (h : n.step c op = some (n', es)) : Stepped c n op n' es := by
  cases op with
  | frame data m clk => exact .frame (handle_cases h)
  | relay now sends =>
    obtain ⟨⟨u, es', done⟩, hu, he⟩ := Option.map_eq_some_iff.mp h
    obtain ⟨rfl, rfl⟩ := Prod.mk.inj he
    exact .relay done hu
  | announce d ok =>
    obtain ⟨⟨u, es', done⟩, hu, he⟩ := Option.map_eq_some_iff.mp h
    obtain ⟨rfl, rfl⟩ := Prod.mk.inj he
    exact .announce done hu
  | tick clk =>
    obtain ⟨t, ht, he⟩ := Option.map_eq_some_iff.mp h
    obtain ⟨rfl, rfl⟩ := Prod.mk.inj he
    exact .tick t ht
  | flush mono =>
    obtain ⟨rfl, rfl⟩ := Prod.mk.inj (Option.some.inj h)
    exact .flush mono
  | expire mono now nowCold =>
    obtain ⟨rfl, rfl⟩ := Prod.mk.inj (Option.some.inj h)
    exact .expire mono now nowCold
  | nextHop nodeId =>
    obtain ⟨⟨a, t⟩, ht, he⟩ := Option.map_eq_some_iff.mp h
    obtain ⟨rfl, rfl⟩ := Prod.mk.inj he
    exact .nextHop a t ht
  | warm limit =>
    obtain ⟨t, ht, he⟩ := Option.map_eq_some_iff.mp h
    obtain ⟨rfl, rfl⟩ := Prod.mk.inj he
    exact .warm t ht

theorem config_step {c : Crypto} {n n' : Node} {op : Op} {es : List Event}
    (h : n.step c op = some (n', es)) : SameConfig n n' := by
  cases step_cases h with
  | frame hh => cases hh <;> exact ⟨rfl, rfl, rfl⟩
  | relay done hr => exact (edge_relayDue hr).toSameConfig
  | announce done ha => exact (edge_announceStep ha).toSameConfig
  | tick t _ => exact ⟨rfl, rfl, rfl⟩
  | flush mono => exact ⟨rfl, rfl, rfl⟩
  | expire mono now nowCold => exact ⟨rfl, rfl, rfl⟩
  | nextHop a t _ => exact ⟨rfl, rfl, rfl⟩
  | warm t _ => exact ⟨rfl, rfl, rfl⟩

theorem config_exec {c : Crypto} {n n' : Node} {ops : List Op} {ess : List (List Event)}
    (h : exec (step c) n ops = some (n', ess)) : SameConfig n n' := by
  refine exec_invariant (P := fun _ => True) (fun {s op s' o} hs _ hstep => ?_)
    ⟨rfl, rfl, rfl⟩ (by simp) h
  have hone := config_step hstep
  exact ⟨hone.identity_eq.trans hs.identity_eq, hone.name_eq.trans hs.name_eq,
    hone.hopLimit_eq.trans hs.hopLimit_eq⟩

end Node

/-! ### A node and a frame for runs on fixed inputs -/

def sampleIdentity : Identity :=
  ⟨nodeIdOf 0, List.replicate keyLen 0, List.replicate keyLen 0, fun _ => List.replicate sigLen 0⟩

/-- A node over an empty database. -/
def Node.sampleStart : Node :=
  Node.new "wlan1" sampleIdentity Beachedmesh.announceInterval ""
    (some (ColdStore.new OrderedDict.empty 0)) defaultHopLimit 0 0

/-- The genuine announce after some hops. -/
def sampleAnnounce (hopLimit : ℤ) : Packet :=
  ⟨sampleNode, broadcast, typeAnnounce, flagNoAck, hopLimit, packetIdOf 1, samplePayload, version⟩

/-- The octets of a packet that packs. -/
def Packet.frame (p : Packet) : Bytes := p.toBytes.getD []

/-- Every reading at one time. -/
def HandleClock.const (t : ℚ) : HandleClock := ⟨⟨t, t, t⟩, 0, t, t⟩

/-! Three nodes, of which the first one owns the genuine announce. -/

def lineMac (a : Fin 3) : Mac := macOf (UInt8.ofNat a.val)

instance neZero_line : NeZero 3 := ⟨by decide⟩

def lineNode (a : Fin 3) : Node :=
  Node.new "wlan1"
    (if a = 0 then lineIdentity else { sampleIdentity with nodeId := nodeIdOf (UInt8.ofNat a.val) })
    announceInterval (if a = 0 then "x" else "")
    ((some OrderedDict.empty).map fun rows => ColdStore.new rows 0) defaultHopLimit 0 0

end Beachedmesh
