import Beachedmesh.Bystander

/-!
# Replayed announces

A copy of an announce that is in the seen cache is not relayed again, but it is
still learned from. So a replay moves the route to whoever transmits it, at once
when it is no longer than the held route and past the guard, and otherwise at
the tick that commits its settle.
-/
namespace Beachedmesh
open Machine

namespace RouteTable

/-- Every record of the node names `h` as its next hop. -/
structure Names (t : RouteTable) (x : NodeId) (h : Mac) : Prop where
  hot : ∀ e, t.hot.get? x = some e → e.nextHop = h
  stored : ∀ b, t.stored x = some b → b.nextHop = h

variable {t t' : RouteTable} {x : NodeId} {h : Mac}

theorem Names.of_heldHop (hn : t.Names x h) {a : Mac} (ha : t.heldHop x = some a) : a = h := by
  unfold heldHop at ha
  cases he : t.hot.get? x with
  | some e =>
    rw [he] at ha
    obtain rfl := Option.some.inj ha
    exact hn.hot e he
  | none =>
    rw [he] at ha
    obtain ⟨b, hb, rfl⟩ := Option.map_eq_some_iff.mp ha
    exact hn.stored b hb

theorem Names.heldHop_eq (hn : t.Names x h) (hs : (t.hot.get? x).isSome ∨ (t.stored x).isSome) :
    t.heldHop x = some h := by
  unfold heldHop
  cases he : t.hot.get? x with
  | some e =>
    rw [← hn.hot e he]
    rfl
  | none =>
    rw [he] at hs
    obtain ⟨b, hb⟩ := Option.isSome_iff_exists.mp (hs.resolve_left (by simp))
    rw [hb, ← hn.stored b hb]
    rfl

/-- What leaves `x` alone keeps the names. -/
theorem Names.leaves (hn : t.Names x h) (hl : t.Leaves x t') : t'.Names x h := by
  refine ⟨fun e he => ?_, fun b hb => hn.stored b (hl.stored b hb)⟩
  rcases hl.hot e he with hold | ⟨-, b, hb, hpacked⟩
  · exact hn.hot e hold
  · exact hpacked.1.trans (hn.stored b hb)

theorem Names.place (hn : t.Names x h) {n : NodeId} {e : Packed} (he : x = n → e.nextHop = h) :
    (t.place n e).Names x h := by
  refine ⟨fun e' he' => ?_, hn.stored⟩
  rcases get?_of_get?_place he' with ⟨hx, rfl⟩ | ⟨-, hold⟩
  · exact he hx
  · exact hn.hot e' hold

/-- After a commit every record names its next hop, whatever was held before. -/
theorem names_commit {c : Copy} {now mono : ℚ} (hx : t.commit c now mono = some t') :
    t'.Names c.nodeId c.nextHop := by
  obtain ⟨e, he, rfl⟩ := commit_eq_some_iff.mp hx
  refine ⟨fun e' he' => ?_, fun b hb => ?_⟩
  · rcases get?_of_get?_place he' with ⟨-, rfl⟩ | ⟨hne, -⟩
    · exact (pack_eq_some_iff.mp he).1
    · exact absurd rfl hne
  · rw [stored_note, if_pos rfl] at hb
    obtain ⟨s, -, rfl⟩ := Option.map_eq_some_iff.mp hb
    rfl

theorem heldHop_commit (hroom : 0 < t.maxHot) {c : Copy} {now mono : ℚ}
    (hx : t.commit c now mono = some t') : t'.heldHop c.nodeId = some c.nextHop := by
  have hn := names_commit hx
  obtain ⟨e, -, rfl⟩ := commit_eq_some_iff.mp hx
  refine hn.heldHop_eq (Or.inl ?_)
  show ((t.place c.nodeId e).hot.get? c.nodeId).isSome = true
  rw [get?_place_self hroom]
  rfl

/-! ### One operation -/

/-- A copy that is learned leaves the next hop, or replaces the route. -/
theorem Names.learn (hn : t.Names x h) {c : Copy} {now mono : ℚ} {v : LearnVerdict}
    (hx : t.learn c now mono = some (v, t')) :
    t'.Names x h ∨ c.nodeId = x ∧ c.nextHop ≠ h ∧
      (∀ old, t.hot.get? x = some old → old.Yields c now) ∧ t'.Names x c.nextHop := by
  by_cases hself : c.nodeId = x
  swap
  · exact Or.inl (hn.leaves (leaves_learn hx hself))
  subst hself
  by_cases hown : t.ownId = some c.nodeId
  · rw [RouteTable.learn, if_pos hown] at hx
    obtain ⟨-, rfl⟩ := Prod.mk.inj (Option.some.inj hx)
    exact Or.inl hn
  rcases learn_replaces_or_stands hx hown with ⟨hy, hcommit⟩ | ⟨old, hold, -, rfl⟩
  · have hnames := names_commit hcommit
    by_cases hne : c.nextHop = h
    · exact Or.inl (hne ▸ hnames)
    · exact Or.inr ⟨rfl, hne, hy, hnames⟩
  · refine Or.inl ⟨hn.hot, fun b hb => ?_⟩
    rw [stored_note, if_pos rfl] at hb
    obtain ⟨s, -, rfl⟩ := Option.map_eq_some_iff.mp hb
    exact hn.hot old hold

/-- A settle for the node that is due replaces the route. -/
theorem tick_due {clk : TickClock} (hx : t.tick clk = some t') {q : Settle}
    (hq : t.pending.get? x = some q) (hdue : q.commitAt ≤ clk.wall) :
    t'.Names x q.nextHop ∧ (t.cold.isSome → (t'.stored x).isSome) := by
  cases tick_cases hx x with
  | idle hno _ _ _ => exact absurd hdue (not_le.mpr (hno q hq))
  | committed q' e hq' _ he _ hh hs =>
    obtain rfl := Option.some.inj (hq.symm.trans hq')
    refine ⟨⟨fun e' he' => ?_, fun b hb => ?_⟩, fun hc => ?_⟩
    · rw [hh e' he']
      exact (pack_eq_some_iff.mp he).1
    · rw [hs] at hb
      obtain ⟨s, -, rfl⟩ := Option.map_eq_some_iff.mp hb
      rfl
    · rw [hs, Option.isSome_map]
      exact hc

/-- A tick leaves the next hop, or commits a settle through another neighbour. -/
theorem Names.tick (hn : t.Names x h) {clk : TickClock} (hx : t.tick clk = some t') :
    t'.Names x h ∨ ∃ q, t.pending.get? x = some q ∧ q.commitAt ≤ clk.wall ∧ q.nextHop ≠ h ∧
      t'.Names x q.nextHop := by
  cases tick_cases hx x with
  | idle _ _ hh hs =>
    exact Or.inl ⟨fun e he => hn.hot e (hh e he), fun b hb => hn.stored b (hs ▸ hb)⟩
  | committed q e hq hdue _ _ _ _ =>
    have hnames := (tick_due hx hq hdue).1
    by_cases hne : q.nextHop = h
    · exact Or.inl (hne ▸ hnames)
    · exact Or.inr ⟨q, hq, hdue, hne, hnames⟩

/-- With an empty buffer, warming brings in what the store reports. -/
theorem Names.warm (hn : t.Names x h) (hu : t.Untouched) {limit : Option ℕ}
    (hx : t.warm limit = some t') : t'.Names x h ∧ t'.Untouched := by
  obtain ⟨hcold, hpend, -, -⟩ := warm_rest hx
  refine ⟨?_, hpend.trans hu.1, fun s hs => hu.2 s (hcold ▸ hs)⟩
  cases hs : t.cold with
  | none =>
    simp only [RouteTable.warm, hs] at hx
    exact Option.some.inj hx ▸ hn
  | some s =>
    simp only [RouteTable.warm, hs] at hx
    have hinv := foldlM_invariant (fun u => u.Names x h ∧ u.cold = t.cold) ?_ ⟨hn, rfl⟩ hx
    · exact hinv.1
    rintro u ⟨n, r⟩ u' hmem ⟨hun, hu'⟩ hput
    obtain ⟨e, he, rfl⟩ := putHot_eq_some_iff.mp hput
    refine ⟨hun.place fun hxn => (pack_eq_some_iff.mp he).1.trans (hn.stored r.bearing ?_), hu'⟩
    have hrow : s.rows.get? n = some r :=
      OrderedDict.get?_eq_some_iff.mpr (List.mem_mergeSort.mp (List.mem_of_mem_take hmem))
    rw [RouteTable.stored, hs, Option.bind_some, ColdStore.bearing?_eq, hu.2 s hs,
      OrderedDict.get?_empty, hxn, hrow, Option.map_some]

end RouteTable

namespace Node

/-- The step would give the route of `x` to a neighbour other than `h`: it is an announce
of `x` from another transmitter to which the held route, if any, yields, or a tick at
which a settle for `x` through another neighbour is due. -/
def Diverts (n : Node) (x : NodeId) (h : Mac) : Op → Prop
  | .frame data m clk => m.srcMac ≠ h ∧ ∃ pkt, Packet.fromBytes data = .ok pkt ∧
      pkt.type = typeAnnounce ∧ pkt.src = x ∧
      ∀ old, n.routes.hot.get? x = some old → old.Yields (n.copyOf pkt m none) clk.now
  | .tick clk => ∃ q, n.routes.pending.get? x = some q ∧ q.commitAt ≤ clk.wall ∧ q.nextHop ≠ h
  | _ => False

variable {c : Crypto} {n n' : Node} {x : NodeId} {h : Mac} {op : Op} {es : List Event}

/-- A step leaves the next hop of `x`, or diverts it. -/
theorem names_step (hn : n.routes.Names x h) (hop : op.isWarm = false)
    (hx : n.step c op = some (n', es)) :
    n'.routes.Names x h ∨ n.Diverts x h op ∧ ∃ h', n'.routes.Names x h' := by
  by_cases hleaves : op.announces x = false ∧ op.isTick = false
  · exact Or.inl (hn.leaves (leaves_step hx hleaves.1 hleaves.2 hop))
  cases op with
  | frame data m clk =>
    cases handle_cases hx with
    | garbled e _ => exact Or.inl hn
    | packet pkt v f _ _ _ => exact Or.inl hn
    | rejected pkt v f e _ _ _ _ _ => exact Or.inl hn
    | verified pkt v f info w t hp ht _ _ _ hl =>
      refine (hn.learn hl).imp_right ?_
      rintro ⟨hsrc, hne, hy, hnames⟩
      exact ⟨⟨hne, pkt, hp, ht, hsrc, hy⟩, _, hnames⟩
    | own pkt f _ _ _ => exact Or.inl hn
    | copy pkt v f w t hp ht _ _ _ hl =>
      refine (hn.learn hl).imp_right ?_
      rintro ⟨hsrc, hne, hy, hnames⟩
      exact ⟨⟨hne, pkt, hp, ht, hsrc, hy⟩, _, hnames⟩
  | tick clk =>
    obtain ⟨t, ht, he⟩ := Option.map_eq_some_iff.mp hx
    obtain ⟨rfl, -⟩ := Prod.mk.inj he
    refine (hn.tick ht).imp_right ?_
    rintro ⟨q, hq, hdue, hne, hnames⟩
    exact ⟨⟨q, hq, hdue, hne⟩, q.nextHop, hnames⟩
  | _ => exact absurd ⟨rfl, rfl⟩ hleaves

/-- In every state after the warming at the start, the records of a node name one next hop. -/
theorem names_reached {iface : String} {identity : Identity} {interval : ℚ} {name : String}
    {db : Option (OrderedDict NodeId Row)} {mono₀ : ℚ} {hopLimit : ℤ} {mono started : ℚ}
    {start past : List Op} (hstart : ∀ op ∈ start, op.isWarm = true)
    (hpast : ∀ op ∈ past, op.isWarm = false) {ess : List (List Event)}
    (hx : exec (step c) (Node.new iface identity interval name
      (db.map fun rows => ColdStore.new rows mono₀) hopLimit mono started) (start ++ past) =
        some (n, ess)) (x : NodeId) : ∃ h, n.routes.Names x h := by
  obtain ⟨n₀, ess₁, ess₂, hx₁, hx₂, -⟩ := exec_append_iff.mp hx
  have hwarmed : (∃ h, n₀.routes.Names x h) ∧ n₀.routes.Untouched := by
    refine @exec_invariant _ _ _ _ (fun m => (∃ h, m.routes.Names x h) ∧ m.routes.Untouched) _
      (fun {s op s' o} hs hop hstep => ?_) _ _ _ _ ?_ hstart hx₁
    · obtain ⟨⟨h, hh⟩, hu⟩ := hs
      cases op with
      | warm limit =>
        obtain ⟨t, ht, he⟩ := Option.map_eq_some_iff.mp hstep
        obtain ⟨rfl, -⟩ := Prod.mk.inj he
        exact ⟨⟨h, (hh.warm hu ht).1⟩, (hh.warm hu ht).2⟩
      | _ => cases hop
    · refine ⟨?_, rfl, ?_⟩
      · let fresh := Node.new iface identity interval name
          (db.map fun rows => ColdStore.new rows mono₀) hopLimit mono started
        cases hst : fresh.routes.stored x with
        | none =>
          refine ⟨macOf 0, fun e he => ?_, fun b hb => ?_⟩
          · cases he
          · cases hst.symm.trans hb
        | some b =>
          refine ⟨b.nextHop, fun e he => ?_, fun b' hb => ?_⟩
          · cases he
          · rw [Option.some.inj (hst.symm.trans hb)]
      · intro s hs
        obtain ⟨rows, -, rfl⟩ := Option.map_eq_some_iff.mp hs
        rfl
  refine @exec_invariant _ _ _ _ (fun m => ∃ h, m.routes.Names x h) _
    (fun {s op s' o} hs hop hstep => ?_) _ _ _ _ hwarmed.1 hpast hx₂
  obtain ⟨h, hh⟩ := hs
  rcases names_step hh hop hstep with hkept | ⟨-, hother⟩
  · exact ⟨h, hkept⟩
  · exact hother

/-- A step that diverts the route moves it, if what is received is known and foreign. -/
theorem Diverts.heldHop (hd : n.Diverts x h op) (hs : n.Sound) (hforeign : x ≠ n.identity.nodeId)
    (hattached : n.routes.cold.isSome)
    (hknown : ∀ data m clk pkt, op = .frame data m clk → Packet.fromBytes data = .ok pkt →
      pkt.type = typeAnnounce → pkt.src = x → n.flooder.Known pkt.key clk.receive.lookup)
    (hx : n.step c op = some (n', es)) : ∃ h', h' ≠ h ∧ n'.routes.heldHop x = some h' := by
  cases op with
  | frame data m clk =>
    obtain ⟨hne, pkt, hp, ht, rfl, hy⟩ := hd
    have hmoved {info : Option AnnounceInfo} {w : LearnVerdict} {t : RouteTable}
        (hl : n.routes.learn (n.copyOf pkt m info) clk.now clk.mono = some (w, t)) :
        t.heldHop pkt.src = some m.srcMac := by
      have hown : n.routes.ownId ≠ some pkt.src := by
        rw [hs.routes.own_eq]
        exact fun he => hforeign (Option.some.inj he).symm
      rcases RouteTable.learn_replaces_or_stands hl hown with ⟨-, hcommit⟩ | ⟨old, hold, hno, -⟩
      · exact RouteTable.heldHop_commit (t := n.routes.dropPending pkt.src) hs.routes.room hcommit
      · exact absurd (hy old hold) hno
    cases handle_cases hx with
    | garbled e h' => cases hp.symm.trans h'
    | packet pkt' v f h' hne' _ =>
      cases hp.symm.trans h'
      exact absurd ht hne'
    | rejected pkt' v f e h' _ hr hv _ =>
      cases hp.symm.trans h'
      exact absurd (hknown data m clk pkt rfl hp ht rfl) ((Flooder.isFirst_iff hr).mp hv).2
    | verified pkt' v f info w t h' _ _ _ _ hl =>
      cases hp.symm.trans h'
      exact ⟨m.srcMac, hne, hmoved hl⟩
    | own pkt' f h' _ hr =>
      cases hp.symm.trans h'
      have hself := (Flooder.own_iff hr).mp rfl
      rw [hs.flooder_own] at hself
      exact absurd (Option.some.inj hself).symm hforeign
    | copy pkt' v f w t h' _ _ _ _ hl =>
      cases hp.symm.trans h'
      exact ⟨m.srcMac, hne, hmoved hl⟩
  | tick clk =>
    obtain ⟨q, hq, hdue, hne⟩ := hd
    obtain ⟨t, ht, he⟩ := Option.map_eq_some_iff.mp hx
    obtain ⟨rfl, -⟩ := Prod.mk.inj he
    obtain ⟨hnames, hstored⟩ := RouteTable.tick_due ht hq hdue
    exact ⟨q.nextHop, hne, hnames.heldHop_eq (Or.inr (hstored hattached))⟩
  | relay now sends => cases hd
  | announce d ok => cases hd
  | flush mono => cases hd
  | expire mono now nowCold => cases hd
  | nextHop nodeId => cases hd
  | warm limit => cases hd

/-- The announces of `p.src` in the run are copies of `p`, each with its key in the seen
cache within the lifetime. -/
def Replays (c : Crypto) (p : Packet) (n : Node) (ops : List Op) : Prop :=
  ∀ pre data m clk post n' ess pkt, ops = pre ++ .frame data m clk :: post →
    exec (step c) n pre = some (n', ess) → Packet.fromBytes data = .ok pkt →
    pkt.type = typeAnnounce → pkt.src = p.src →
    pkt = p ∧ n'.flooder.seen.Live p.key clk.receive.lookup

/-- In no state of the run is another next hop than `h` held for `x`. -/
def Keeps (c : Crypto) (x : NodeId) (h : Mac) (n : Node) (ops : List Op) : Prop :=
  ∀ pre post n' ess, ops = pre ++ post → exec (step c) n pre = some (n', ess) →
    ∀ a, n'.routes.heldHop x = some a → a = h

/-- No step of the run diverts `x` from `h`. -/
def Undiverted (c : Crypto) (x : NodeId) (h : Mac) (n : Node) (ops : List Op) : Prop :=
  ∀ pre op post n' ess n'' es, ops = pre ++ op :: post →
    exec (step c) n pre = some (n', ess) → n'.step c op = some (n'', es) →
    ¬ n'.Diverts x h op

end Node

/-- In every run of replays, from every state that a node reaches: the next hop held for
the replayed node stays what it was, if no step diverts it, and with a database only
then. -/
theorem replays_keep_next_hop_iff (c : Crypto) (iface : String) (identity : Identity)
    (interval : ℚ) (name : String) (db : Option (OrderedDict NodeId Row)) (mono₀ : ℚ)
    (hopLimit : ℤ) (mono started : ℚ) {start past ops : List Node.Op}
    (hstart : ∀ op ∈ start, op.isWarm = true) (hpast : ∀ op ∈ past, op.isWarm = false)
    (hops : ∀ op ∈ ops, op.isWarm = false) {n : Node} {ess : List (List Event)}
    (hx : exec (Node.step c) (Node.new iface identity interval name
      (db.map fun rows => ColdStore.new rows mono₀) hopLimit mono started) (start ++ past) =
        some (n, ess))
    {p : Packet} (hforeign : p.src ≠ identity.nodeId) {h : Mac}
    (hheld : n.routes.heldHop p.src = some h) (hcopies : Node.Replays c p n ops) :
    (Node.Undiverted c p.src h n ops → Node.Keeps c p.src h n ops) ∧
      (db.isSome → Node.Keeps c p.src h n ops → Node.Undiverted c p.src h n ops) := by
  have hnames : n.routes.Names p.src h := by
    obtain ⟨h', hn⟩ := Node.names_reached hstart hpast hx p.src
    exact hn.of_heldHop hheld ▸ hn
  have hiswarm {pre post : List Node.Op} {op : Node.Op} (he : ops = pre ++ op :: post) :
      op.isWarm = false := hops op (by simp [he])
  constructor
  · intro hno pre post n₁ ess₁ he hx₁ a ha
    refine RouteTable.Names.of_heldHop ?_ ha
    refine exec_prefix (fun _ m => m.routes.Names p.src h) hnames ?_ he hx₁
    intro pre op post m essₘ m' es he hxₘ hm hstep
    rcases Node.names_step hm (hiswarm he) hstep with hkept | ⟨hd, -⟩
    · exact hkept
    · exact absurd hd (hno pre op post m essₘ m' es he hxₘ hstep)
  · intro hdb hkeeps pre op post m essₘ m' es he hxₘ hstep hd
    have hsound : m.Sound := ((Node.sound_new iface identity interval name db mono₀ hopLimit mono
      started).exec hx).exec hxₘ
    have hid : m.identity = identity :=
      (Node.config_exec hxₘ).identity_eq.trans (Node.config_exec hx).identity_eq
    have hattached : m.routes.cold.isSome := by
      rw [Node.isSome_cold_exec hxₘ, Node.isSome_cold_exec hx]
      exact Option.isSome_map.trans hdb
    obtain ⟨h', hne, hh'⟩ := hd.heldHop hsound (hid ▸ hforeign) hattached
      (fun data k clk pkt hop hpkt ht hsrc => by
        subst hop
        obtain ⟨rfl, hlive⟩ := hcopies pre data k clk post m essₘ pkt he hxₘ hpkt ht hsrc
        exact Or.inr hlive) hstep
    have hx' : exec (Node.step c) n (pre ++ [op]) = some (m', essₘ ++ [es]) :=
      exec_append_iff.mpr ⟨m, essₘ, [es], hxₘ, exec_cons_iff.mpr ⟨m', es, [], hstep, rfl, rfl⟩, rfl⟩
    exact hne (hkeeps (pre ++ [op]) post m' _ (by simpa using he) hx' h' hh')

/-- A genuine announce, heard from a first neighbour. -/
def heardRun : List Node.Op :=
  [.frame (sampleAnnounce 3).frame ⟨macOf 1, some (-60)⟩ (HandleClock.const 100)]

/-- Five seconds later, a bit-identical copy of it. -/
def replayRun (mac : Mac) : List Node.Op :=
  [.frame (sampleAnnounce 3).frame ⟨mac, some (-60)⟩ (HandleClock.const 105)]

theorem fromBytes_sampleAnnounce :
    Packet.fromBytes (sampleAnnounce 3).frame = .ok (sampleAnnounce 3) := by
  decide +kernel

/-- Replayed by the neighbour that is the next hop, it moves nothing. -/
theorem replayed_by_next_hop : ∃ n ess,
    exec (Node.step sampleCrypto) Node.sampleStart heardRun = some (n, ess) ∧
    n.routes.heldHop sampleNode = some (macOf 1) ∧
    Node.Keeps sampleCrypto sampleNode (macOf 1) n (replayRun (macOf 1)) := by
  have hrun : (exec (Node.step sampleCrypto) Node.sampleStart heardRun).map (fun r =>
      (r.1.routes.heldHop sampleNode, r.1.flooder.seen.d.get? (sampleAnnounce 3).key,
        r.1.flooder.seen.ttl)) = some (some (macOf 1), some 100, 600) := by
    decide +kernel
  obtain ⟨⟨n, ess⟩, hx, hrun⟩ := Option.map_eq_some_iff.mp hrun
  simp only [Prod.mk.injEq] at hrun
  obtain ⟨hheld, hseen, httl⟩ := hrun
  have hone {pre post : List Node.Op} {op : Node.Op}
      (he : replayRun (macOf 1) = pre ++ op :: post) : pre = [] ∧ op = .frame
        (sampleAnnounce 3).frame ⟨macOf 1, some (-60)⟩ (HandleClock.const 105) := by
    cases pre with
    | nil => exact ⟨rfl, (List.cons.inj he).1.symm⟩
    | cons op' pre => simp [replayRun] at he
  have hcopies : Node.Replays sampleCrypto (sampleAnnounce 3) n (replayRun (macOf 1)) := by
    intro pre data m clk post n' ess' pkt he hx' hp _ _
    obtain ⟨rfl, hop⟩ := hone he
    obtain ⟨rfl, rfl, rfl⟩ := Node.Op.frame.inj hop
    obtain ⟨rfl, -⟩ := Prod.mk.inj (Option.some.inj hx')
    obtain rfl := Except.ok.inj (hp.symm.trans fromBytes_sampleAnnounce)
    refine ⟨rfl, 100, hseen, ?_⟩
    rw [httl]
    decide +kernel
  have hiff := replays_keep_next_hop_iff sampleCrypto _ _ _ _ (some OrderedDict.empty) 0 _ _ _
    (fun _ h => absurd h List.not_mem_nil) (by decide) (by decide) hx (by decide) hheld hcopies
  refine ⟨n, ess, hx, hheld, hiff.1 ?_⟩
  intro pre op post n' ess' n'' es he _ _ hd
  obtain ⟨-, rfl⟩ := hone he
  exact hd.1 rfl

/-- The packet of an announce with its contents, and how it came. -/
def Event.received? : Event → Option (Packet × FrameMeta)
  | .announce (some _) pkt m _ _ => some (pkt, m)
  | _ => none

/-- Replayed by another neighbour, past the guard and from within the cache, it takes the
route over. -/
theorem replay_takes_route : ∃ n ess n' ess' info w v,
    exec (Node.step sampleCrypto) Node.sampleStart heardRun = some (n, ess) ∧
    .announce (some info) (sampleAnnounce 3) ⟨macOf 1, some (-60)⟩ w v ∈ ess.flatten ∧
    n.flooder.seen.Live (sampleAnnounce 3).key 105 ∧
    (∀ old, n.routes.hot.get? sampleNode = some old → floodGuard + 1 < 105 - old.lastSeen) ∧
    n.routes.heldHop sampleNode = some (macOf 1) ∧
    exec (Node.step sampleCrypto) n (replayRun (macOf 2)) = some (n', ess') ∧
    n'.routes.heldHop sampleNode = some (macOf 2) := by
  have hheard : (exec (Node.step sampleCrypto) Node.sampleStart heardRun).map
      (fun r => r.2.flatten.filterMap Event.received?) =
        some [(sampleAnnounce 3, ⟨macOf 1, some (-60)⟩)] := by
    decide +kernel
  have hstate : (exec (Node.step sampleCrypto) Node.sampleStart heardRun).map (fun r =>
      (r.1.flooder.seen.d.get? (sampleAnnounce 3).key, r.1.flooder.seen.ttl,
        (r.1.routes.hot.get? sampleNode).map Packed.lastSeen)) =
      some (some 100, 600, some 100) := by
    decide +kernel
  have hrun : ((exec (Node.step sampleCrypto) Node.sampleStart heardRun).bind fun r =>
      (exec (Node.step sampleCrypto) r.1 (replayRun (macOf 2))).map fun q =>
        (r.1.routes.heldHop sampleNode, q.1.routes.heldHop sampleNode)) =
      some (some (macOf 1), some (macOf 2)) := by
    decide +kernel
  obtain ⟨⟨n, ess⟩, hx, hrun⟩ := Option.bind_eq_some_iff.mp hrun
  obtain ⟨⟨n', ess'⟩, hx', hrun⟩ := Option.map_eq_some_iff.mp hrun
  obtain ⟨hbefore, hafter⟩ := Prod.mk.inj hrun
  rw [hx, Option.map_some, Option.some.injEq] at hstate
  simp only [Prod.mk.injEq] at hstate
  obtain ⟨hseen, httl, hdate⟩ := hstate
  rw [hx, Option.map_some, Option.some.injEq] at hheard
  have hmem : (sampleAnnounce 3, (⟨macOf 1, some (-60)⟩ : FrameMeta)) ∈
      ess.flatten.filterMap Event.received? := by
    rw [hheard]
    exact List.mem_singleton.mpr rfl
  obtain ⟨e, he, hv⟩ := List.mem_filterMap.mp hmem
  obtain ⟨info, w, v, rfl⟩ : ∃ info w v,
      e = .announce (some info) (sampleAnnounce 3) ⟨macOf 1, some (-60)⟩ w v := by
    cases e with
    | announce info pkt m w v =>
      cases info with
      | none => cases hv
      | some info =>
        obtain ⟨rfl, rfl⟩ := Prod.mk.inj (Option.some.inj hv)
        exact ⟨info, w, v, rfl⟩
    | _ => cases hv
  refine ⟨n, ess, n', ess', info, w, v, hx, he, ⟨100, hseen, ?_⟩, ?_, hbefore, hx', hafter⟩
  · rw [httl]
    decide +kernel
  · intro old hold
    rw [hold] at hdate
    rw [Option.some.inj hdate]
    decide +kernel

end Beachedmesh
