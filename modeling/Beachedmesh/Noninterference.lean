import Beachedmesh.WriteBuffer
import Beachedmesh.Bystander
import Beachedmesh.Inserted
import Beachedmesh.NodeFlooder

/-!
# What a rejected announce does to the others

Two runs of a node on the same inputs, one of them with a frame more whose announce does
not verify. They are compared in the announces that are verified and their keys stored,
and in the packets with verifying announces that `due` hands out for relaying. All of
this is decided by the flooder, so the runs of the nodes are compared there.
-/
namespace Beachedmesh
open Machine

/-- Packets with an announce that passes `parse_announce`. -/
def verifying (c : Crypto) : PacketKind where
  holds pkt := decide (pkt.type = typeAnnounce) && (parseAnnounce c pkt.src pkt.payload).isOk
  relayed := by
    intro p q h
    obtain ⟨-, rfl⟩ := Packet.relayed_eq_some_iff.mp h
    rfl

theorem verifying_iff {c : Crypto} {pkt : Packet} :
    (verifying c).holds pkt = true ↔
      pkt.type = typeAnnounce ∧ ∃ info, parseAnnounce c pkt.src pkt.payload = .ok info := by
  simp only [verifying, Bool.and_eq_true, decide_eq_true_eq]
  cases parseAnnounce c pkt.src pkt.payload <;> simp [Except.isOk, Except.toBool]

/-! ### Keys that a verified announce stores -/

/-- The keys of a hearing that has both are what the store answers from then on. -/
theorem ColdStore.keysOf_buffer (s : ColdStore) (n : NodeId) {h : Hearing} {sign enc : Bytes}
    (hsign : h.signPub = some sign) (henc : h.encryptPub = some enc) (hs : sign ≠ [])
    (he : enc ≠ []) (mono : ℚ) :
    (s.buffer n h mono).keysOf n = (some sign, some enc) := by
  have hmerge : (s.merge n h).signPub = some sign ∧ (s.merge n h).encryptPub = some enc := by
    unfold ColdStore.merge
    cases s.buf.get? n with
    | none => exact ⟨hsign, henc⟩
    | some prev =>
      simp only [Hearing.over, hsign, henc, orKey_of_ne_nil hs, orKey_of_ne_nil he, and_self]
  rw [buffer_eq, keysOf]
  split_ifs
  · rw [get_flush]
    simp only [OrderedDict.get?_insert, if_true]
    cases s.rows.get? n <;>
      simp [Row.upsert, Row.ofHearing, Row.update, ofRow, hmerge.1, hmerge.2, coalesce]
  · simp [get, ofHearing, hmerge.1, hmerge.2]

namespace RouteTable

/-- The keys of a node if there is a database to keep them. -/
def kept (t : RouteTable) (sign enc : Bytes) : Option Bytes × Option Bytes :=
  if t.cold.isSome then (some sign, some enc) else (none, none)

variable {t t' : RouteTable}

theorem keysFor_eq {s : ColdStore} (h : t.cold = some s) (n : NodeId) :
    t.keysFor n = s.keysOf n := by
  unfold keysFor ColdStore.keysOf
  rw [h]
  rfl

theorem keysFor_note (t : RouteTable) (n : NodeId) {h : Hearing} {sign enc : Bytes}
    (hsign : h.signPub = some sign) (henc : h.encryptPub = some enc) (hs : sign ≠ [])
    (he : enc ≠ []) (mono : ℚ) : (t.note n h mono).keysFor n = t.kept sign enc := by
  unfold kept
  cases hc : t.cold with
  | none => simp [keysFor, note, hc]
  | some s =>
    have hcold : (t.note n h mono).cold = some (s.buffer n h mono) := by
      simp only [note, hc, Option.map_some]
    rw [keysFor_eq hcold]
    exact s.keysOf_buffer n hsign henc hs he mono

theorem keysFor_learn {c : Copy} {now mono : ℚ} {v : LearnVerdict}
    (h : t.learn c now mono = some (v, t')) (hown : t.ownId ≠ some c.nodeId) {sign enc : Bytes}
    (hsign : c.signPub = some sign) (henc : c.encryptPub = some enc) (hs : sign ≠ [])
    (he : enc ≠ []) : t'.keysFor c.nodeId = t.kept sign enc := by
  rcases learn_replaces_or_stands h hown with ⟨-, hcommit⟩ | ⟨old, -, -, rfl⟩
  · obtain ⟨e, -, rfl⟩ := commit_eq_some_iff.mp hcommit
    exact keysFor_note ((t.dropPending c.nodeId).place c.nodeId e) c.nodeId
      (h := c.hearing now) hsign henc hs he mono
  · exact keysFor_note { t with pending := t.standing c now old } c.nodeId
      (h := old.heard c now) hsign henc hs he mono

end RouteTable

/-! ### What a step shows -/

/-- An announce that `on_announce` sees with its contents. -/
def Event.verified? : Event → Option (Packet × AnnounceInfo)
  | .announce (some info) pkt _ _ _ => some (pkt, info)
  | _ => none

namespace Node

/-- The announces that a step verifies, the keys that `keys_for` then answers for their
senders, and the packets with verifying announces that `due` hands out. -/
structure Sight where
  verified : List (Packet × AnnounceInfo)
  stored : List (Option Bytes × Option Bytes)
  handed : List Packet
  deriving DecidableEq

def Sight.blank : Sight := ⟨[], [], []⟩

/-- What a step from `n` to `n'` with the events `es` shows. -/
def sight (c : Crypto) (n : Node) (op : Op) (n' : Node) (es : List Event) : Sight :=
  match op with
  | .frame _ _ _ =>
    let verified := es.filterMap Event.verified?
    ⟨verified, verified.map fun v => n'.routes.keysFor v.1.src, []⟩
  | .relay now _ => ⟨[], [], (n.flooder.due now).1.filter (verifying c).holds⟩
  | _ => Sight.blank

/-- A step together with what it shows. -/
def watch (c : Crypto) (n : Node) (op : Op) : Option (Node × Sight) :=
  (n.step c op).map fun r => (r.1, n.sight c op r.1 r.2)

/-- The packets with verifying announces that the flooder of `n` takes up or hands out. -/
def shown (c : Crypto) (n : Node) (op : Op) : List Packet :=
  match op.flood? with
  | some fop => n.flooder.sight (verifying c) fop
  | none => []

variable {c : Crypto} {n n' : Node} {op : Op} {es : List Event}

/-- A frame shows its packet if the flooder takes it up and it is verifying, with the keys
that the database then holds; otherwise it shows nothing. -/
theorem watch_frame (hs : n.Sound) {data : Bytes} {m : FrameMeta} {clk : HandleClock} {s : Sight}
    (h : n.watch c (.frame data m clk) = some (n', s)) :
    n.shown c (.frame data m clk) = [] ∧ s = Sight.blank ∨
      ∃ pkt info, n.shown c (.frame data m clk) = [pkt] ∧
        parseAnnounce c pkt.src pkt.payload = .ok info ∧
        s = ⟨[(pkt, info)], [n.routes.kept info.signPub info.encryptPub], []⟩ := by
  obtain ⟨⟨u, es⟩, hx, he⟩ := Option.map_eq_some_iff.mp h
  obtain ⟨rfl, rfl⟩ := Prod.mk.inj he
  have hshown {pkt : Packet} {v : Verdict} {f : Flooder}
      (hp : Packet.fromBytes data = .ok pkt)
      (hr : n.flooder.onReceive pkt m.rssi clk.receive clk.draw = (v, f)) :
      n.shown c (.frame data m clk) =
        if v.IsFirst ∧ (verifying c).holds pkt = true then [pkt] else [] := by
    simp only [shown, flood?_frame hp, Flooder.sight, hr]
  have hbad {pkt : Packet} (hn : ¬ (pkt.type = typeAnnounce ∧
      ∃ info, parseAnnounce c pkt.src pkt.payload = .ok info)) :
      ¬ (verifying c).holds pkt = true := fun hg => hn (verifying_iff.mp hg)
  cases handle_cases hx with
  | garbled e hp =>
    refine Or.inl ⟨?_, rfl⟩
    simp only [shown, flood?_garbled hp]
  | packet pkt v f hp ht hr =>
    exact Or.inl ⟨(hshown hp hr).trans (if_neg fun hc => hbad (fun hg => ht hg.1) hc.2), rfl⟩
  | rejected pkt v f e hp _ hr _ hparse =>
    refine Or.inl ⟨(hshown hp hr).trans (if_neg fun hc => hbad (fun hg => ?_) hc.2), rfl⟩
    obtain ⟨-, info, hinfo⟩ := hg
    cases hparse.symm.trans hinfo
  | verified pkt v f info w t hp ht hr hv hparse hl =>
    refine Or.inr ⟨pkt, info, ?_, hparse, ?_⟩
    · exact (hshown hp hr).trans (if_pos ⟨hv, verifying_iff.mpr ⟨ht, info, hparse⟩⟩)
    · have hne {k : Bytes} (hk : k.length = keyLen) : k ≠ [] := by
        rintro rfl
        cases hk
      obtain ⟨hsign, henc⟩ := parseAnnounce_keyLen hparse
      have hforeign : n.routes.ownId ≠ some pkt.src := by
        rw [hs.routes.own_eq, ← hs.flooder_own]
        exact ((Flooder.isFirst_iff hr).mp hv).1
      have hkeys := RouteTable.keysFor_learn hl hforeign rfl rfl (hne hsign) (hne henc)
      simp only [sight, List.filterMap_cons, List.filterMap_nil, Event.verified?, List.map_cons,
        List.map_nil]
      rw [← hkeys]
      rfl
  | own pkt f hp _ hr =>
    refine Or.inl ⟨(hshown hp hr).trans (if_neg fun hc => ?_), rfl⟩
    simp [Verdict.IsFirst] at hc
  | copy pkt v f w t hp _ hr hv _ _ =>
    exact Or.inl ⟨(hshown hp hr).trans (if_neg fun hc => hv hc.1), rfl⟩

/-- Two nodes with and without a database alike show the same in a step exactly when
their flooders do. -/
theorem watch_eq_iff {u u' : Node} (hs : n.Sound) (hs' : u.Sound)
    (hcold : u.routes.cold.isSome = n.routes.cold.isSome) {s s' : Sight}
    (h : n.watch c op = some (n', s)) (h' : u.watch c op = some (u', s')) :
    s' = s ↔ u.shown c op = n.shown c op := by
  have hrest (hop : ∀ data m clk, op ≠ .frame data m clk) :
      s = ⟨[], [], n.shown c op⟩ ∧ s' = ⟨[], [], u.shown c op⟩ := by
    obtain ⟨⟨v, es⟩, -, he⟩ := Option.map_eq_some_iff.mp h
    obtain ⟨⟨v', es'⟩, -, he'⟩ := Option.map_eq_some_iff.mp h'
    obtain ⟨-, rfl⟩ := Prod.mk.inj he
    obtain ⟨-, rfl⟩ := Prod.mk.inj he'
    cases op with
    | frame data m clk => exact absurd rfl (hop data m clk)
    | _ => exact ⟨rfl, rfl⟩
  by_cases hop : ∀ data m clk, op ≠ .frame data m clk
  · obtain ⟨rfl, rfl⟩ := hrest hop
    simp
  simp only [ne_eq, not_forall, not_not] at hop
  obtain ⟨data, m, clk, rfl⟩ := hop
  rcases watch_frame hs h with ⟨he, rfl⟩ | ⟨pkt, info, he, hi, rfl⟩ <;>
    rcases watch_frame hs' h' with ⟨he', rfl⟩ | ⟨pkt', info', he', hi', rfl⟩
  · exact iff_of_true rfl (he'.trans he.symm)
  · refine iff_of_false (fun hss => ?_) (by rw [he, he']; simp)
    cases congrArg Sight.verified hss
  · refine iff_of_false (fun hss => ?_) (by rw [he, he']; simp)
    cases congrArg Sight.verified hss
  · rw [he, he', RouteTable.kept, RouteTable.kept, hcold]
    constructor
    · intro hss
      have hverified := congrArg Sight.verified hss
      simp only [List.cons.injEq, Prod.mk.injEq, and_true] at hverified
      rw [hverified.1]
    · intro hpp
      obtain rfl : pkt' = pkt := by simpa using hpp
      obtain rfl := Except.ok.inj (hi.symm.trans hi')
      rfl

/-! ### Runs -/

/-- The operations of the flooder in a run of the node. -/
def floods (ops : List Op) : List FloodOp := ops.filterMap Op.flood?

theorem step_of_watch {s : Sight} (h : n.watch c op = some (n', s)) :
    ∃ es, n.step c op = some (n', es) := by
  obtain ⟨⟨u, es⟩, hx, he⟩ := Option.map_eq_some_iff.mp h
  obtain ⟨rfl, -⟩ := Prod.mk.inj he
  exact ⟨es, hx⟩

/-- What a watched step leaves alone, and how it moves the flooder. -/
structure Kept (n n' : Node) (op : Op) : Prop where
  sound : n'.Sound
  nodeId_eq : n'.identity.nodeId = n.identity.nodeId
  cold_eq : n'.routes.cold.isSome = n.routes.cold.isSome
  flooder_eq : n'.flooder = (floods [op]).foldl (Flooder.after n.identity.nodeId) n.flooder

theorem kept_watch (hs : n.Sound) {s : Sight} (h : n.watch c op = some (n', s)) :
    Kept n n' op := by
  obtain ⟨es, hx⟩ := step_of_watch h
  refine ⟨hs.step hx, congrArg Identity.nodeId (config_step hx).identity_eq,
    isSome_cold_step hx, ?_⟩
  rw [flooder_step hx, floods]
  cases hf : op.flood? <;> simp [hf]

/-- A node reached by a watched run, with its flooder after the flooder's operations. -/
theorem kept_exec (hs : n.Sound) {ops : List Op} {a : List Sight}
    (h : exec (watch c) n ops = some (n', a)) :
    n'.Sound ∧ n'.identity.nodeId = n.identity.nodeId ∧
      n'.routes.cold.isSome = n.routes.cold.isSome ∧
      n'.flooder = (floods ops).foldl (Flooder.after n.identity.nodeId) n.flooder := by
  induction ops generalizing n a with
  | nil =>
    obtain ⟨rfl, -⟩ := Prod.mk.inj (Option.some.inj h)
    exact ⟨hs, rfl, rfl, rfl⟩
  | cons op ops ih =>
    obtain ⟨n₁, s, a', h₁, h₂, -⟩ := exec_cons_iff.mp h
    have hk := kept_watch hs h₁
    obtain ⟨hs', hid, hcold, hfl⟩ := ih hk.sound h₂
    refine ⟨hs', hid.trans hk.nodeId_eq, hcold.trans hk.cold_eq, ?_⟩
    have hsplit : floods (op :: ops) = floods [op] ++ floods ops :=
      List.filterMap_append (l := [op])
    rw [hfl, hk.nodeId_eq, hk.flooder_eq, hsplit, List.foldl_append]

/-- Runs of two nodes on the same inputs show the same exactly when their flooders do. -/
theorem watched_eq_iff {u u' : Node} (hs : n.Sound) (hs' : u.Sound)
    (hid : u.identity.nodeId = n.identity.nodeId)
    (hcold : u.routes.cold.isSome = n.routes.cold.isSome) {ops : List Op} {a b : List Sight}
    (hx : exec (watch c) n ops = some (n', a)) (hy : exec (watch c) u ops = some (u', b)) :
    b = a ↔ Flooder.sights (verifying c) n.identity.nodeId u.flooder (floods ops) =
      Flooder.sights (verifying c) n.identity.nodeId n.flooder (floods ops) := by
  induction ops generalizing n u a b with
  | nil =>
    obtain ⟨-, rfl⟩ := Prod.mk.inj (Option.some.inj hx)
    obtain ⟨-, rfl⟩ := Prod.mk.inj (Option.some.inj hy)
    exact iff_of_true rfl rfl
  | cons op ops ih =>
    obtain ⟨n₁, s, a', h₁, h₂, rfl⟩ := exec_cons_iff.mp hx
    obtain ⟨u₁, s', b', h₁', h₂', rfl⟩ := exec_cons_iff.mp hy
    have hk := kept_watch hs h₁
    have hk' := kept_watch hs' h₁'
    have hrest := ih hk.sound hk'.sound (by rw [hk.nodeId_eq, hk'.nodeId_eq, hid])
      (by rw [hk.cold_eq, hk'.cold_eq, hcold]) h₂ h₂'
    rw [List.cons.injEq, watch_eq_iff hs hs' hcold h₁ h₁', hrest, hk.nodeId_eq, hk.flooder_eq,
      hk'.flooder_eq, hid]
    cases hf : op.flood? <;> simp [shown, floods, hf, Flooder.sights]

/-- A node as the daemon builds it, with or without a database. -/
def Starts (n : Node) : Prop :=
  ∃ (iface : String) (identity : Identity) (interval : ℚ) (name : String)
    (db : Option (OrderedDict NodeId Row)) (mono₀ : ℚ) (hopLimit : ℤ) (mono started : ℚ),
    n = Node.new iface identity interval name (db.map fun rows => ColdStore.new rows mono₀) hopLimit
      mono started

theorem Starts.sound (h : n.Starts) : n.Sound := by
  obtain ⟨iface, identity, interval, name, db, mono₀, hopLimit, mono, started, rfl⟩ := h
  exact sound_new iface identity interval name db mono₀ hopLimit mono started

/-- Nothing is pending at the start. -/
theorem Starts.tracked (h : n.Starts) :
    n.flooder.Tracked n.identity.nodeId 4096 600 := by
  obtain ⟨iface, identity, interval, name, db, mono₀, hopLimit, mono, started, rfl⟩ := h
  refine { Flooder.sane_start identity.nodeId relayThreshold 4096 600 with
    seen := ?_, heard_lt := ?_ }
  · intro k hk
    cases hk
  · intro _ k p hp
    cases hp

theorem Starts.threshold_pos (h : n.Starts) : 0 < n.flooder.threshold := by
  obtain ⟨iface, identity, interval, name, db, mono₀, hopLimit, mono, started, rfl⟩ := h
  show 0 < relayThreshold
  decide

/-- The run reaches neither the capacity nor the lifetime of the seen cache. -/
def Fits (n : Node) (ops : List Op) : Prop :=
  Flooder.FitsRun n.identity.nodeId n.flooder (floods ops)

instance (n : Node) (ops : List Op) : Decidable (n.Fits ops) :=
  inferInstanceAs (Decidable (Flooder.FitsRun _ _ _))

/-- The packet `g` is the node's own; or its key is in the cache, and counting `g` does not
cancel a relay of a verifying announce at the time that its timer fires; or its key is new,
and the next packet of that key is not a verifying announce. -/
def Harmless (c : Crypto) (n : Node) (g : Packet) (post : List Op) : Prop :=
  Flooder.Harmless (verifying c) n.identity.nodeId n.flooder g (floods post)

end Node

/-- For every run of a node and every frame more whose announce does not verify, at any
point of it: while neither run reaches the capacity or the lifetime of the seen cache,
every other frame has its announce verified and its keys stored as before, and `due`
hands out the same packets with verifying announces, exactly when the frame more is
harmless. -/
theorem rejected_shows_iff (c : Crypto) {n₀ n n₁ n₂ : Node} (hstart : n₀.Starts)
    {pre post : List Node.Op} {a₀ a b : List Node.Sight} {data : Bytes} {g : Packet}
    (hpkt : Packet.fromBytes data = .ok g) {e : BadAnnounce}
    (hbad : parseAnnounce c g.src g.payload = .error e) {m : FrameMeta} {clk : HandleClock}
    (hpre : exec (Node.watch c) n₀ pre = some (n, a₀))
    (hwithout : exec (Node.watch c) n₀ (pre ++ post) = some (n₁, a))
    (hwith : exec (Node.watch c) n₀ (pre ++ .frame data m clk :: post) = some (n₂, b))
    (hfits : n₀.Fits (pre ++ post)) (hfits' : n₀.Fits (pre ++ .frame data m clk :: post)) :
    b.eraseIdx pre.length = a ↔ n.Harmless c g post := by
  obtain ⟨hs, hid, -, hfl⟩ := Node.kept_exec hstart.sound hpre
  obtain ⟨v, os₁, a', hv, hpost, rfl⟩ := exec_append_iff.mp hwithout
  obtain ⟨rfl, rfl⟩ := Prod.mk.inj (Option.some.inj (hpre.symm.trans hv))
  obtain ⟨v', os₂, b', hv', hrest, rfl⟩ := exec_append_iff.mp hwith
  obtain ⟨rfl, rfl⟩ := Prod.mk.inj (Option.some.inj (hpre.symm.trans hv'))
  obtain ⟨u, s, b', hg, hpost', rfl⟩ := exec_cons_iff.mp hrest
  have hk := Node.kept_watch hs hg
  have hgood : (verifying c).holds g = false := by
    refine Bool.eq_false_iff.mpr fun hv => ?_
    obtain ⟨-, info, hinfo⟩ := verifying_iff.mp hv
    cases hbad.symm.trans hinfo
  -- the flooder where the runs part, and what is left of its operations
  have hflood := Node.flood?_frame hpkt m clk
  unfold Node.Fits Node.floods at hfits hfits'
  rw [List.filterMap_append] at hfits hfits'
  rw [List.filterMap_cons_some hflood] at hfits'
  have ht := hstart.tracked.foldl hfits.prefix
  have hfit := hfits.suffix
  have hfit' := hfits'.suffix
  rw [← Node.floods, ← hfl, ← hid] at ht hfit hfit'
  have huf : u.flooder = n.flooder.after n.identity.nodeId
      (.receive g m.rssi clk.receive clk.draw) := by
    rw [hk.flooder_eq, Node.floods, List.filterMap_cons_some hflood]
    rfl
  rw [← length_exec hpre, List.eraseIdx_append_of_length_le le_rfl, Nat.sub_self,
    List.eraseIdx_cons_zero, List.append_cancel_left_eq,
    Node.watched_eq_iff hs hk.sound hk.nodeId_eq hk.cold_eq hpost hpost', huf]
  have hpos : 0 < n.flooder.threshold := by
    rw [hfl, Flooder.threshold_foldl]
    exact hstart.threshold_pos
  exact Flooder.inserted_sights_iff ht hpos hgood hfit hfit'

/-- The genuine announce with its payload blanked, under the same id. -/
def blankedAnnounce : Packet :=
  { sampleAnnounce 3 with payload := List.replicate announceMin 0 }

theorem blankedAnnounce_bad :
    parseAnnounce sampleCrypto blankedAnnounce.src blankedAnnounce.payload = .error .wrongKey := by
  decide +kernel

theorem fromBytes_blankedAnnounce :
    Packet.fromBytes blankedAnnounce.frame = .ok blankedAnnounce := by
  decide +kernel

theorem starts_sample : Node.sampleStart.Starts :=
  ⟨_, _, _, _, some OrderedDict.empty, 0, _, _, _, rfl⟩

def blankedFrame : Node.Op :=
  .frame blankedAnnounce.frame ⟨macOf 2, some (-60)⟩ (HandleClock.const 99)

def genuineFrame : Node.Op :=
  .frame (sampleAnnounce 3).frame ⟨macOf 1, some (-60)⟩ (HandleClock.const 100)

/-- Counted after the genuine one, the blanked announce cancels nothing yet. -/
theorem blanked_copy_harmless : ∃ n₁ n₂ a b,
    exec (Node.watch sampleCrypto) Node.sampleStart [genuineFrame, .relay 200 10] =
      some (n₁, a) ∧
    exec (Node.watch sampleCrypto) Node.sampleStart [genuineFrame, blankedFrame, .relay 200 10] =
      some (n₂, b) ∧
    a.map Node.Sight.handed = [[], [sampleAnnounce 2]] ∧ b.eraseIdx 1 = a := by
  have hrun : (exec (Node.watch sampleCrypto) Node.sampleStart [genuineFrame]).map (fun r =>
      (r.1.flooder.pending.get? blankedAnnounce.key, r.1.flooder.threshold,
        decide (blankedAnnounce.key ∈ r.1.flooder.seen.d.keys))) =
        some (some ⟨sampleAnnounce 2, 10009 / 100, 0⟩, 3, true) := by
    decide +kernel
  have hwithout : (exec (Node.watch sampleCrypto) Node.sampleStart
      [genuineFrame, .relay 200 10]).map (fun r => r.2.map Node.Sight.handed) =
        some [[], [sampleAnnounce 2]] := by
    decide +kernel
  have hwith : (exec (Node.watch sampleCrypto) Node.sampleStart
      [genuineFrame, blankedFrame, .relay 200 10]).isSome = true := by
    decide +kernel
  obtain ⟨⟨n, a₀⟩, hpre, hstate⟩ := Option.map_eq_some_iff.mp hrun
  obtain ⟨⟨n₁, a⟩, hx, hhanded⟩ := Option.map_eq_some_iff.mp hwithout
  obtain ⟨⟨n₂, b⟩, hy⟩ := Option.isSome_iff_exists.mp hwith
  simp only [Prod.mk.injEq, decide_eq_true_eq] at hstate
  obtain ⟨hpending, hthreshold, hseen⟩ := hstate
  refine ⟨n₁, n₂, a, b, hx, hy, hhanded, ?_⟩
  refine (rejected_shows_iff sampleCrypto starts_sample fromBytes_blankedAnnounce
    blankedAnnounce_bad hpre hx hy (by decide +kernel) (by decide +kernel)).mpr
    (Or.inr (Or.inl ⟨hseen, fun p hp _ => ?_⟩))
  obtain rfl := Option.some.inj (hpending.symm.trans hp)
  have hfloods : Node.floods [.relay 200 10] = [.due 200] := rfl
  rw [hthreshold, hfloods]
  simp [Flooder.Misses]

/-- Received before the genuine announce, the blanked one takes its id: the genuine one is
neither verified nor stored nor relayed. -/
theorem blanked_hides_genuine : ∃ n₁ n₂ a b,
    Node.sampleStart.Starts ∧
    Packet.fromBytes blankedAnnounce.frame = .ok blankedAnnounce ∧
    blankedAnnounce.type = typeAnnounce ∧
    parseAnnounce sampleCrypto blankedAnnounce.src blankedAnnounce.payload = .error .wrongKey ∧
    exec (Node.watch sampleCrypto) Node.sampleStart [genuineFrame, .relay 200 10] =
      some (n₁, a) ∧
    exec (Node.watch sampleCrypto) Node.sampleStart [blankedFrame, genuineFrame, .relay 200 10] =
      some (n₂, b) ∧
    Node.sampleStart.Fits [genuineFrame, .relay 200 10] ∧
    Node.sampleStart.Fits [blankedFrame, genuineFrame, .relay 200 10] ∧
    a.map (fun s => (s.verified.map Prod.fst, s.handed)) =
      [([sampleAnnounce 3], []), ([], [sampleAnnounce 2])] ∧
    b.eraseIdx 0 = [Node.Sight.blank, Node.Sight.blank] := by
  have hwithout : (exec (Node.watch sampleCrypto) Node.sampleStart
      [genuineFrame, .relay 200 10]).map
        (fun r => r.2.map fun s => (s.verified.map Prod.fst, s.handed)) =
        some [([sampleAnnounce 3], []), ([], [sampleAnnounce 2])] := by
    decide +kernel
  have hwith : (exec (Node.watch sampleCrypto) Node.sampleStart
      [blankedFrame, genuineFrame, .relay 200 10]).map (fun r => r.2.eraseIdx 0) =
        some [Node.Sight.blank, Node.Sight.blank] := by
    decide +kernel
  obtain ⟨⟨n₁, a⟩, hx, ha⟩ := Option.map_eq_some_iff.mp hwithout
  obtain ⟨⟨n₂, b⟩, hy, hb⟩ := Option.map_eq_some_iff.mp hwith
  exact ⟨n₁, n₂, a, b, starts_sample, fromBytes_blankedAnnounce, rfl, blankedAnnounce_bad, hx, hy,
    by decide +kernel, by decide +kernel, ha, hb⟩

end Beachedmesh
