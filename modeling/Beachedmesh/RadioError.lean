import Beachedmesh.NodeFlooder

/-!
# A radio that fails during a turn

`due` takes the relays out of the pending table and counts them before the first
one is sent. When a send fails, the turn ends there: the relays behind it are
counted as relayed, and no table holds them any more.
-/
namespace Beachedmesh
namespace Node

variable {c : Crypto} {n n' : Node}

/-- The relays among the events, each of them sent. -/
def relayedIn (es : List Event) : List Packet :=
  es.filterMap fun e => match e with
    | .relayed p => some p
    | _ => none

theorem Relays.relayedIn_eq {ps : List Packet} {es : List Event} (h : Relays ps es) :
    relayedIn es = ps := by
  induction h with
  | nil => rfl
  | @cons p _ _ _ _ _ ih => exact congrArg (p :: ·) ih

/-- A reception relays nothing and counts nothing as relayed. -/
theorem receive_relays_nothing {got : Option (Bytes × FrameMeta × HandleClock)} {es : List Event}
    (h : n.receive c got = some (n', es)) :
    relayedIn es = [] ∧ n'.flooder.stats.relayed = n.flooder.stats.relayed := by
  cases got with
  | none =>
    obtain ⟨rfl, rfl⟩ := Prod.mk.inj (Option.some.inj h)
    exact ⟨rfl, rfl⟩
  | some g =>
    obtain ⟨data, m, clk⟩ := g
    have hg : n.handle c data m clk = some (n', es) := h
    have hstats : n'.flooder.stats.relayed = n.flooder.stats.relayed := by
      rcases flooder_handle hg with ⟨-, -, hsame⟩ | ⟨pkt, v, -, hr⟩
      · rw [hsame]
      · generalize n'.flooder = f at hr ⊢
        cases Flooder.onReceive_cases hr <;> rfl
    have hnone : relayedIn es = [] := by
      cases handle_cases hg <;> rfl
    exact ⟨hnone, hstats⟩

/-- An announce that fails to go out changes neither the relays nor their count. -/
theorem announceStep_fails {d : AnnounceDraw} {ok : Bool} {es : List Event}
    (h : n.announceStep d ok = some (n', es, false)) :
    es = [] ∧ n'.flooder.pending = n.flooder.pending ∧
      n'.flooder.stats.relayed = n.flooder.stats.relayed := by
  obtain ⟨rfl, rfl, -, -, rfl⟩ := announceStep_cases h
  rw [(edge_sendAnnounce n d false).2]
  exact ⟨rfl, rfl, rfl⟩

/-- A turn that ends with a failed send: in the relays, or in the announce after them. -/
theorem poll_fails {i : Turn} {es : List Event} (h : n.poll c i = some (n', es, false)) :
    ∃ n₀ e₀ e₁, n.receive c i.got = some (n₀, e₀) ∧ es = e₀ ++ e₁ ∧
      (n₀.relayDue i.due i.sends = some (n', e₁, false) ∨
        ∃ n₁, n₀.relayDue i.due i.sends = some (n₁, e₁, true) ∧
          n₁.announceStep i.announce i.announceOk = some (n', [], false)) := by
  cases poll_cases h with
  | relayFailed h₀ h₁ => exact ⟨_, _, _, h₀, rfl, Or.inl h₁⟩
  | announceFailed h₀ h₁ h₂ =>
    obtain ⟨rfl, -, -⟩ := announceStep_fails h₂
    exact ⟨_, _, _, h₀, by rw [List.append_nil], Or.inr ⟨_, h₁, h₂⟩⟩

end Node

open Node

/-- In every turn that a radio error ends, whatever the state of the node: each relay that
was due has been sent or is still pending, and the count grows by those sent, exactly when
the sends of the relays all succeed, so that it is the announce that fails. -/
theorem radio_error_keeps_relays_iff {c : Crypto} {n n₀ n' : Node} {i : Turn} {e₀ es : List Event}
    (h₀ : n.receive c i.got = some (n₀, e₀)) (h : n.poll c i = some (n', es, false)) :
    ((∀ p ∈ (n₀.flooder.due i.due).1, p ∈ relayedIn es ∨
        ∃ key q, n'.flooder.pending.get? key = some q ∧ q.packet = p) ∧
      n'.flooder.stats.relayed = n.flooder.stats.relayed + (relayedIn es).length) ↔
    (n₀.flooder.due i.due).1.length ≤ i.sends := by
  obtain ⟨m, e, e₁, hm, rfl, hend⟩ := poll_fails h
  obtain ⟨rfl, rfl⟩ := Prod.mk.inj (Option.some.inj (hm.symm.trans h₀))
  obtain ⟨hnone, hsame⟩ := receive_relays_nothing h₀
  obtain ⟨n₁, ok, hr, hdone⟩ : ∃ n₁ ok, m.relayDue i.due i.sends = some (n₁, e₁, ok) ∧
      n'.flooder.stats.relayed = n₁.flooder.stats.relayed := by
    rcases hend with hr | ⟨n₁, hr, ha⟩
    · exact ⟨n', false, hr, rfl⟩
    · exact ⟨n₁, true, hr, (announceStep_fails ha).2.2⟩
  have hsent : relayedIn (e ++ e₁) = (m.flooder.due i.due).1.take i.sends := by
    rw [relayedIn, List.filterMap_append, ← relayedIn, ← relayedIn, hnone, List.nil_append,
      (relays_sendRelays hr).1.relayedIn_eq]
  have hcount : n'.flooder.stats.relayed =
      n.flooder.stats.relayed + (m.flooder.due i.due).1.length := by
    rw [hdone, flooder_relayDue hr, ← hsame, Flooder.due, List.length_map]
  rw [hsent, hcount, List.length_take]
  constructor
  · rintro ⟨-, heq⟩
    omega
  · intro hle
    rw [List.take_of_length_le hle]
    exact ⟨fun p hp => Or.inl hp, by omega⟩

/-- A node with one relay whose time has come. -/
def relayingNode : Node :=
  { Node.sampleStart with
    nextAnnounce := 50
    flooder := { Node.sampleStart.flooder with
      pending := OrderedDict.empty.insert (sampleAnnounce 2).key ⟨sampleAnnounce 2, 100, 0⟩ } }

/-- A silent turn at time 100, after `sends` sends of which the radio fails. -/
def failingTurn (sends : ℕ) : Turn where
  got := none
  now := 100
  due := 100
  sends := sends
  announce := ⟨⟨List.replicate randomLen 0, length_zeros⟩, packetIdOf 5, 100, 100⟩
  announceOk := false
  tick := ⟨100, 100, 100, 100⟩
  expireNow := 100
  expireCold := 100

/-- The relay goes out and the announce fails. -/
theorem radio_error_keeps_relays_announce : ∃ n' es,
    relayingNode.poll sampleCrypto (failingTurn 1) = some (n', es, false) ∧
    n'.flooder.stats.relayed = relayingNode.flooder.stats.relayed + (relayedIn es).length := by
  have hrun : (relayingNode.poll sampleCrypto (failingTurn 1)).map (fun r => r.2.2) =
      some false := by decide +kernel
  obtain ⟨⟨n', es, ok⟩, h, rfl⟩ := Option.map_eq_some_iff.mp hrun
  exact ⟨n', es, h, ((radio_error_keeps_relays_iff rfl h).mpr (by decide +kernel)).2⟩

/-- The send of the relay itself fails: nothing was sent, nothing is pending, and one relay
is counted. -/
theorem radio_error_loses_relay : ∃ n' es,
    relayingNode.poll sampleCrypto (failingTurn 0) = some (n', es, false) ∧
    (relayingNode.flooder.due (failingTurn 0).due).1 = [sampleAnnounce 2] ∧
    sampleAnnounce 2 ∉ relayedIn es ∧
    (∀ key q, n'.flooder.pending.get? key = some q → q.packet ≠ sampleAnnounce 2) ∧
    n'.flooder.stats.relayed ≠ relayingNode.flooder.stats.relayed + (relayedIn es).length := by
  have hrun : (relayingNode.poll sampleCrypto (failingTurn 0)).map (fun r =>
      decide (r.2.2 = false ∧ relayedIn r.2.1 = [] ∧ r.1.flooder.pending.keys = [] ∧
        r.1.flooder.stats.relayed = 1)) = some true := by decide +kernel
  obtain ⟨⟨n', es, ok⟩, h, hto⟩ := Option.map_eq_some_iff.mp hrun
  obtain ⟨rfl, hes, hpending, hstats⟩ := of_decide_eq_true hto
  refine ⟨n', es, h, by decide +kernel, by rw [hes]; exact List.not_mem_nil, ?_, ?_⟩
  · intro key q hq
    have hmem : key ∈ n'.flooder.pending.keys := OrderedDict.mem_keys_iff.mpr ⟨q, hq⟩
    rw [hpending] at hmem
    cases hmem
  · rw [hes, hstats]
    decide

end Beachedmesh
