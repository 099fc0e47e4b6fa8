import Beachedmesh.Schedule
import Beachedmesh.RelayFates
import Beachedmesh.RadioError

/-!
# What the status says

The counters of the node and of its flooder, as the status line and the control socket tell
them. The node counts what it handles and what goes out. The flooder counts a relay when it
hands it out, sent or not, and it answers each reception for one of its own columns at most.
-/
namespace Beachedmesh
open Machine

namespace Flooder

variable {f f' : Flooder}

/-- The receptions that the counters and the pending table speak for: one for each relay
ever scheduled, one for each copy that cancelled one, and the others as they are counted. -/
def spent (f : Flooder) : ℕ :=
  f.accounted + f.stats.cancelled + f.stats.expiredHops + f.stats.duplicates

/-- A reception is spoken for once at most, and hands nothing out. -/
theorem spent_onReceive {pkt : Packet} {rssi : Option ℤ} {clk : ReceiveClock} {draw : ℚ}
    {v : Verdict} (h : f.onReceive pkt rssi clk draw = (v, f')) :
    f'.spent ≤ f.spent + 1 ∧ f'.stats.relayed = f.stats.relayed := by
  have hmem {p : Pending} (hp : f.pending.get? pkt.key = some p) : pkt.key ∈ f.pending.keys :=
    OrderedDict.mem_keys_iff.mpr ⟨p, hp⟩
  cases onReceive_cases h with
  | own _ =>
    have hsize := OrderedDict.size_erase_le f.pending pkt.key
    refine ⟨?_, rfl⟩
    simp only [spent, accounted]
    omega
  | cancelled p _ hp _ =>
    have hsize := OrderedDict.size_erase_add_one (hmem hp)
    refine ⟨?_, rfl⟩
    simp only [spent, accounted]
    omega
  | counted p _ hp _ =>
    have hsize := OrderedDict.size_insert_of_mem { p with heard := p.heard + 1 } (hmem hp)
    refine ⟨?_, rfl⟩
    simp only [spent, accounted, hsize]
    omega
  | duplicate _ _ _ => exact ⟨le_rfl, rfl⟩
  | noHops _ _ _ _ =>
    refine ⟨?_, rfl⟩
    simp only [spent, accounted]
    omega
  | scheduled relay _ hnone _ _ =>
    have hsize := OrderedDict.size_insert_of_not_mem
      (⟨relay, clk.schedule + relayDelay rssi draw, 0⟩ : Pending)
      (OrderedDict.get?_eq_none_iff.mp hnone)
    refine ⟨?_, rfl⟩
    simp only [spent, accounted, hsize]
    omega

/-- A relay that is handed out was accounted for while it waited. -/
theorem spent_due (f : Flooder) (now : ℚ) : (f.due now).2.spent = f.spent ∧
    (f.due now).2.stats.relayed = f.stats.relayed + (f.due now).1.length := by
  have hsplit := List.length_eq_length_filter_add (l := f.pending.entries)
    fun e => decide (e.2.sendAt ≤ now)
  have hrest : (f.pending.entries.filter fun e => !decide (e.2.sendAt ≤ now)) =
      f.pending.entries.filter fun e => decide (¬ e.2.sendAt ≤ now) :=
    List.filter_congr fun e _ => decide_not.symm
  rw [hrest] at hsplit
  refine ⟨?_, by simp [due]⟩
  simp only [spent, accounted, due, OrderedDict.size, OrderedDict.filter]
  omega

end Flooder

/-- The node has rejected an announce. -/
def Event.isRejection : Event → Bool
  | .announceRejected _ _ => true
  | _ => false

namespace Node

variable {c : Crypto} {n n' n₁ n₂ n₃ : Node} {es e₁ e₂ : List Event}
  {gs g₁ g₂ : List (Bytes × FrameMeta × HandleClock)} {p₁ p₂ : List Packet}

/-- What `recv` handed to the step is a packet. -/
def readable (g : Bytes × FrameMeta × HandleClock) : Bool := (Packet.fromBytes g.1).toOption.isSome

/-- The relays that are due and do not go out, because the radio fails. -/
def lost (n : Node) : Op → List Packet
  | .relay now sends => (n.flooder.due now).1.drop sends
  | _ => []

/-- All relays that the radio fails on in a run. -/
def lostIn (c : Crypto) : Node → List Op → List Packet
  | _, [] => []
  | n, op :: ops => n.lost op ++ (n.step c op).elim [] fun r => lostIn c r.1 ops

/-- The counters have moved by what was handled, what was let out and what was lost, every
frame sent being a relay or an announce. -/
structure Booked (n n' : Node) (es : List Event) (gs : List (Bytes × FrameMeta × HandleClock))
    (ps : List Packet) : Prop where
  received : n'.stats.received = n.stats.received + gs.countP readable
  sent : n'.stats.sent = n.stats.sent + (sents es).length
  announces : n'.stats.announces = n.stats.announces + announcesIn es
  relayed : n'.stats.relayed = n.stats.relayed + (relayedIn es).length
  rejected : n'.stats.rejected = n.stats.rejected + es.countP Event.isRejection
  split : (sents es).length = (relayedIn es).length + announcesIn es
  handed : n'.flooder.stats.relayed =
    n.flooder.stats.relayed + (relayedIn es).length + ps.length
  spent : n'.flooder.spent ≤ n.flooder.spent + gs.countP readable

theorem Booked.refl (n : Node) : Booked n n [] [] [] :=
  ⟨rfl, rfl, rfl, rfl, rfl, rfl, rfl, le_rfl⟩

theorem Booked.trans (h₁ : Booked n₁ n₂ e₁ g₁ p₁) (h₂ : Booked n₂ n₃ e₂ g₂ p₂) :
    Booked n₁ n₃ (e₁ ++ e₂) (g₁ ++ g₂) (p₁ ++ p₂) := by
  have hsents : sents (e₁ ++ e₂) = sents e₁ ++ sents e₂ := List.filterMap_append
  have hrelayed : relayedIn (e₁ ++ e₂) = relayedIn e₁ ++ relayedIn e₂ := List.filterMap_append
  obtain ⟨hreceived₁, hsent₁, hannounces₁, hrelayed₁, hrejected₁, hsplit₁, hhanded₁, hspent₁⟩ := h₁
  obtain ⟨hreceived₂, hsent₂, hannounces₂, hrelayed₂, hrejected₂, hsplit₂, hhanded₂, hspent₂⟩ := h₂
  constructor <;>
    simp only [hsents, hrelayed, announcesIn_append, List.length_append, List.countP_append] <;>
    omega

/-- A step that counts nothing. -/
theorem booked_uncounted (hstats : n'.stats = n.stats) (hflooder : n'.flooder = n.flooder)
    (hes : ∀ e ∈ es, ∃ id, e = .expired id) : Booked n n' es [] [] := by
  have hnone {p : Event → Bool} (hp : ∀ id, p (.expired id) = false) : es.countP p = 0 := by
    refine List.countP_eq_zero.mpr fun e he => ?_
    obtain ⟨id, rfl⟩ := hes e he
    simp [hp]
  have hsents : sents es = [] := List.filterMap_eq_nil_iff.mpr fun e he => by
    obtain ⟨id, rfl⟩ := hes e he
    rfl
  have hrelayed : relayedIn es = [] := List.filterMap_eq_nil_iff.mpr fun e he => by
    obtain ⟨id, rfl⟩ := hes e he
    rfl
  have hannounces : announcesIn es = 0 := hnone fun _ => rfl
  have hrejections : es.countP Event.isRejection = 0 := hnone fun _ => rfl
  constructor <;> simp [hstats, hflooder, hsents, hrelayed, hannounces, hrejections]

/-- A packet is counted, and so is its rejection; nothing goes out. -/
theorem booked_received {data : Bytes} {m : FrameMeta} {clk : HandleClock} {pkt : Packet}
    {v : Verdict} {f : Flooder} (hp : Packet.fromBytes data = .ok pkt)
    (hr : n.flooder.onReceive pkt m.rssi clk.receive clk.draw = (v, f)) (hflooder : n'.flooder = f)
    (hstats : n'.stats = { n.stats with
      received := n.stats.received + 1
      rejected := n.stats.rejected + es.countP Event.isRejection })
    (hsents : sents es = []) (hrelayed : relayedIn es = []) (hannounces : announcesIn es = 0) :
    Booked n n' es [(data, m, clk)] [] := by
  have hread : [(data, m, clk)].countP readable = 1 := by
    simp [readable, hp, Except.toOption]
  obtain ⟨hspent, hhanded⟩ := Flooder.spent_onReceive hr
  constructor <;> simp [hread, hflooder, hstats, hsents, hrelayed, hannounces, hspent, hhanded]

theorem booked_handled {data : Bytes} {m : FrameMeta} {clk : HandleClock}
    (h : Handled c n data m clk n' es) : Booked n n' es [(data, m, clk)] [] := by
  cases h with
  | garbled e he =>
    have hzero : [(data, m, clk)].countP readable = 0 := by
      simp [readable, he, Except.toOption]
    have hnone := Booked.refl n
    exact ⟨by rw [hzero]; rfl, hnone.sent, hnone.announces, hnone.relayed, hnone.rejected,
      hnone.split, hnone.handed, by rw [hzero]; exact le_rfl⟩
  | packet pkt v f hp _ hr => exact booked_received hp hr rfl rfl rfl rfl rfl
  | rejected pkt v f e hp _ hr _ _ => exact booked_received hp hr rfl rfl rfl rfl rfl
  | verified pkt v f info w t hp _ hr _ _ _ => exact booked_received hp hr rfl rfl rfl rfl rfl
  | own pkt f hp _ hr => exact booked_received hp hr rfl rfl rfl rfl rfl
  | copy pkt v f w t hp _ hr _ _ _ => exact booked_received hp hr rfl rfl rfl rfl rfl

/-- Both counters of the node count the relays that were sent. -/
theorem stats_sendRelays {ps : List Packet} {sends : ℕ} {done : Bool}
    (h : n.sendRelays ps sends = some (n', es, done)) :
    n'.stats = { n.stats with
      relayed := n.stats.relayed + (ps.take sends).length
      sent := n.stats.sent + (ps.take sends).length } := by
  induction ps generalizing n sends es with
  | nil =>
    obtain ⟨rfl, -⟩ := Prod.mk.inj (Option.some.inj h)
    simp
  | cons p ps ih =>
    obtain ⟨b, -, h⟩ := Option.bind_eq_some_iff.mp h
    cases sends with
    | zero =>
      obtain ⟨rfl, -⟩ := Prod.mk.inj (Option.some.inj h)
      simp
    | succ sends =>
      obtain ⟨⟨u, es', done'⟩, hrest, h⟩ := Option.map_eq_some_iff.mp h
      simp only [Prod.mk.injEq] at h
      obtain ⟨rfl, -, rfl⟩ := h
      rw [ih hrest]
      simp only [List.take_succ_cons, List.length_cons]
      congr 1 <;> omega

theorem Relays.no_rejection {ps : List Packet} (h : Relays ps es) :
    es.countP Event.isRejection = 0 := by
  induction h with
  | nil => rfl
  | cons _ _ ih => exact ih

theorem booked_relayDue {now : ℚ} {sends : ℕ} {done : Bool}
    (h : n.relayDue now sends = some (n', es, done)) :
    Booked n n' es [] ((n.flooder.due now).1.drop sends) := by
  have hstats := stats_sendRelays h
  have hflooder := flooder_relayDue h
  obtain ⟨hrelays, -, -⟩ := relays_sendRelays h
  obtain ⟨hspent, hhanded⟩ := n.flooder.spent_due now
  have hsents : (sents es).length = ((n.flooder.due now).1.take sends).length :=
    hrelays.packs.length_eq.symm
  have hrelayed := congrArg List.length hrelays.relayedIn_eq
  have hannounces := hrelays.silent
  have hrejections := hrelays.no_rejection
  have hcut : ((n.flooder.due now).1.take sends).length +
      ((n.flooder.due now).1.drop sends).length = (n.flooder.due now).1.length := by
    rw [← List.length_append, List.take_append_drop]
  constructor <;>
    simp only [hstats, hflooder, hsents, hrelayed, hannounces, hrejections, List.countP_nil,
      hspent, hhanded] <;>
    omega

theorem booked_announceStep {d : AnnounceDraw} {ok done : Bool}
    (h : n.announceStep d ok = some (n', es, done)) : Booked n n' es [] [] := by
  obtain ⟨rfl, rfl, b, hb, rfl⟩ := announceStep_cases h
  have hflooder := (edge_sendAnnounce n d done).2
  cases done with
  | true =>
    have hstats : (n.sendAnnounce d true).1.stats = { n.stats with
        sent := n.stats.sent + 1
        announces := n.stats.announces + 1 } := by
      simp only [sendAnnounce, hb, if_true]
    refine ⟨?_, ?_, ?_, ?_, ?_, rfl, by rw [hflooder]; rfl, by rw [hflooder]; exact le_rfl⟩
    all_goals rw [hstats]; rfl
  | false =>
    have hstats : (n.sendAnnounce d false).1.stats = n.stats := by
      simp only [sendAnnounce, hb, Bool.false_eq_true, if_false]
    refine ⟨?_, ?_, ?_, ?_, ?_, rfl, by rw [hflooder]; rfl, by rw [hflooder]; exact le_rfl⟩
    all_goals rw [hstats]; rfl

theorem booked_step {op : Op} (h : n.step c op = some (n', es)) :
    Booked n n' es op.got?.toList (n.lost op) := by
  cases step_cases h with
  | frame hh => exact booked_handled hh
  | relay done hr => exact booked_relayDue hr
  | announce done ha => exact booked_announceStep ha
  | tick t _ => exact booked_uncounted rfl rfl (by simp)
  | flush mono => exact booked_uncounted rfl rfl (by simp)
  | expire mono now nowCold =>
    refine booked_uncounted rfl rfl fun e he => ?_
    obtain ⟨id, -, rfl⟩ := List.mem_map.mp he
    exact ⟨id, rfl⟩
  | nextHop a t _ => exact booked_uncounted rfl rfl (by simp)
  | warm t _ => exact booked_uncounted rfl rfl (by simp)

/-- The counters along any run of the node. -/
theorem booked_exec {ops : List Op} {ess : List (List Event)}
    (hx : exec (step c) n ops = some (n', ess)) :
    Booked n n' ess.flatten (ops.filterMap Op.got?) (lostIn c n ops) := by
  induction ops generalizing n ess with
  | nil =>
    obtain ⟨rfl, rfl⟩ := Prod.mk.inj (Option.some.inj hx)
    exact Booked.refl n
  | cons op ops ih =>
    obtain ⟨u, es, ess', hone, hrest, rfl⟩ := exec_cons_iff.mp hx
    have htwo := (booked_step hone).trans (ih hrest)
    rw [List.flatten_cons, List.filterMap_cons, lostIn, hone]
    cases hgot : op.got? with
    | none => simpa [hgot] using htwo
    | some g => simpa [hgot] using htwo

end Node

open Node

/-- A daemon on a new node, with whatever it warmed. -/
def Daemon.fresh (iface : String) (identity : Identity) (interval : ℚ) (name : String)
    (cold : Option ColdStore) (hopLimit : ℤ) (mono started : ℚ) (routes : RouteTable)
    (listening : Bool) (every : PyFloat) (lastStatus : ℚ) : Daemon where
  node := { Node.new iface identity interval name cold hopLimit mono started with
    routes := routes }
  listening := listening
  statusEvery := every
  lastStatus := lastStatus
  phase := .running

/-- The status tells the truth after every run of the daemon from its start: how many packets
were handled, how many frames, announces and rejections there were. What it tells of relays
are those that went out and those that the radio failed on, in the steps of the node that
make up the run; so the frames sent are the relays and announces it tells or fewer, and what
it tells of relays and copies is within the packets received. -/
theorem status_tells_truth {E : Runtime} {c : Crypto} {iface : String} {identity : Identity}
    {interval : ℚ} {name : String} {cold : Option ColdStore} {hopLimit : ℤ} {mono started : ℚ}
    {routes : RouteTable} {listening : Bool} {every : PyFloat} {lastStatus : ℚ} {d : Daemon}
    {ins : List Daemon.Input} {os : List Daemon.Output}
    (hx : exec (Daemon.step E c) (.fresh iface identity interval name cold hopLimit mono started
      routes listening every lastStatus) ins = some (d, os)) (k : Connection) :
    ∃ fields, d.node.status k = .obj fields ∧
      Json.field? fields "received" =
        some (.int ((ins.filterMap Daemon.Input.got?).countP readable)) ∧
      Json.field? fields "sent" = some (.int (sents (os.flatMap Daemon.Output.events)).length) ∧
      Json.field? fields "announces_sent" =
        some (.int (announcesIn (os.flatMap Daemon.Output.events))) ∧
      Json.field? fields "rejected" =
        some (.int ((os.flatMap Daemon.Output.events).countP Event.isRejection)) ∧
      ∃ relayed cancelled duplicates : ℕ, Json.field? fields "relayed" = some (.int relayed) ∧
        Json.field? fields "cancelled" = some (.int cancelled) ∧
        Json.field? fields "duplicates" = some (.int duplicates) ∧
        (∃ ops ess, exec (Node.step c) (Daemon.fresh iface identity interval name cold hopLimit
            mono started routes listening every lastStatus).node ops = some (d.node, ess) ∧
          ess.flatten = os.flatMap Daemon.Output.events ∧
          ops.filterMap Node.Op.got? = ins.filterMap Daemon.Input.got? ∧
          relayed = (relayedIn (os.flatMap Daemon.Output.events)).length +
            (lostIn c (Daemon.fresh iface identity interval name cold hopLimit mono started
              routes listening every lastStatus).node ops).length) ∧
        (sents (os.flatMap Daemon.Output.events)).length ≤
          relayed + announcesIn (os.flatMap Daemon.Output.events) ∧
        relayed + 2 * cancelled + d.node.flooder.pending.size + duplicates ≤
          (ins.filterMap Daemon.Input.got?).countP readable := by
  obtain ⟨ops, ess, hsteps, hes, hgs⟩ := Daemon.handles_exec hx
  have h := booked_exec hsteps
  rw [hes, hgs] at h
  have hreceived := h.received
  have hsent := h.sent
  have hannounces := h.announces
  have hrejected := h.rejected
  have hsplit := h.split
  have hhanded := h.handed
  have hspent := h.spent
  simp only [Daemon.fresh, Node.new, Nat.zero_add] at hreceived hsent hannounces hrejected
  simp only [Daemon.fresh, Node.new, Flooder.new, Nat.zero_add] at hhanded
  simp only [Daemon.fresh, Node.new, Flooder.new, Flooder.spent, Flooder.accounted,
    OrderedDict.size_empty, Nat.zero_add] at hspent
  refine ⟨_, rfl, ?_, ?_, ?_, ?_, _, _, _, rfl, rfl, rfl, ⟨ops, ess, hsteps, hes, hgs, hhanded⟩,
    by omega, by omega⟩
  · rw [← hreceived]
    rfl
  · rw [← hsent]
    rfl
  · rw [← hannounces]
    rfl
  · rw [← hrejected]
    rfl

/-- A turn in which one announce is heard and another one goes out. -/
theorem status_tells_truth_sampleTurn :
    ∃ (d : Daemon) (fields : List (String × Json)),
      d.node.status Control.silentClient = .obj fields ∧
      Json.field? fields "received" = some (.int 1) ∧
      Json.field? fields "sent" = some (.int 1) := by
  have hrun : (exec (Daemon.step Control.sampleRuntime sampleCrypto) (.fresh "wlan1" sampleIdentity
      announceInterval "" (some (ColdStore.new OrderedDict.empty 0)) defaultHopLimit 0 0
      Node.sampleStart.routes true (.finite 300) 0) [Daemon.sampleTurn]).map (fun r =>
        (sents (r.2.flatMap Daemon.Output.events)).length) = some 1 := by
    decide +kernel
  obtain ⟨⟨d, os⟩, hx, hsents⟩ := Option.map_eq_some_iff.mp hrun
  obtain ⟨fields, hstatus, hreceived, hsent, -⟩ := status_tells_truth hx Control.silentClient
  have hread : ([Daemon.sampleTurn].filterMap Daemon.Input.got?).countP readable = 1 := by
    decide +kernel
  rw [hread] at hreceived
  rw [hsents] at hsent
  exact ⟨d, fields, hstatus, hreceived, hsent⟩

end Beachedmesh
