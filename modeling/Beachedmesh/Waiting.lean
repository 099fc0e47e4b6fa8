import Beachedmesh.Receive
import Beachedmesh.RadioError

/-!
# Waiting for the air

`poll` works out how long it may wait, and `recv` waits for the timeout of its socket.
The clock here is explicit: it stands still but for the wait of `recv`, which ends with
what arrives or with that timeout.
-/
namespace Beachedmesh
open Machine

def maxPoll : ℚ := 1 / 4

/-- The timeout that a link sets on its socket. -/
def MonitorLink.timeout : ℚ := 1

/-! ### When a relay is due -/

theorem relayDelay_mem (rssi : Option ℤ) {draw : ℚ} (h0 : 0 ≤ draw) (h1 : draw ≤ 1) :
    cwMin ≤ relayDelay rssi draw ∧ relayDelay rssi draw ≤ cwMax := by
  have hcw : cwMin = 1 / 100 ∧ cwMax = 23 / 100 := by norm_num [cwMin, cwMax]
  rw [hcw.1, hcw.2]
  cases rssi with
  | none =>
    rw [relayDelay, hcw.1, hcw.2]
    constructor <;> linarith
  | some r =>
    rw [relayDelay]
    split
    · next threshold base jitter hfind =>
      have hmem := List.mem_of_find?_eq_some hfind
      simp only [delayBands, List.mem_cons, Prod.mk.injEq, List.not_mem_nil, or_false] at hmem
      rcases hmem with ⟨-, rfl, rfl⟩ | ⟨-, rfl, rfl⟩ | ⟨-, rfl, rfl⟩ | ⟨-, rfl, rfl⟩ |
        ⟨-, rfl, rfl⟩ | ⟨-, rfl, rfl⟩
      all_goals constructor <;> linarith
    · rw [hcw.2]
      norm_num

namespace Flooder

variable {f : Flooder} {key : Key} {p : Pending}

theorem nextDeadline_le (h : f.pending.get? key = some p) :
    ∃ d, f.nextDeadline = some d ∧ d ≤ p.sendAt := by
  have hmem : p.sendAt ∈ f.pending.entries.map (fun e => e.2.sendAt) :=
    List.mem_map.mpr ⟨(key, p), OrderedDict.get?_eq_some_iff.mp h, rfl⟩
  unfold nextDeadline
  cases hmin : (f.pending.entries.map (fun e => e.2.sendAt)).min? with
  | none =>
    rw [List.min?_eq_none_iff] at hmin
    rw [hmin] at hmem
    cases hmem
  | some d => exact ⟨d, rfl, (List.min?_eq_some_iff.mp hmin).2 _ hmem⟩

theorem exists_of_nextDeadline {d : ℚ} (h : f.nextDeadline = some d) :
    ∃ key p, f.pending.get? key = some p ∧ p.sendAt = d := by
  obtain ⟨e, he, rfl⟩ := List.mem_map.mp (List.min?_eq_some_iff.mp h).1
  exact ⟨e.1, e.2, OrderedDict.get?_eq_some_iff.mpr he, rfl⟩

/-- Every pending relay is due after `T`, within the longest of the delays. -/
def Waits (f : Flooder) (T : ℚ) : Prop :=
  ∀ key p, f.pending.get? key = some p → T < p.sendAt ∧ p.sendAt ≤ T + cwMax

end Flooder

/-! ### A turn on the explicit clock -/

/-- What a turn meets: a datagram, with the time it takes to arrive, or silence; the wall
clock, the draws and the fate of the sends. -/
structure Air where
  heard : Option (ℚ × Bytes)
  wall : ℚ
  draw : ℚ
  sends : ℕ
  random : {b : Bytes // b.length = randomLen}
  packetId : PacketId
  announceOk : Bool

namespace Air

/-- How long `recv` takes. -/
def wait (i : Air) : ℚ :=
  match i.heard with
  | none => MonitorLink.timeout
  | some (after, _) => after

/-- The draws and readings of a turn whose `recv` returns at `T`. `recv` raises nothing. -/
def turn (i : Air) (T : ℚ) : Node.Turn where
  got := match MonitorLink.recv (i.heard.map Prod.snd) with
    | .ok (some (data, lm)) =>
      some (data, Raising.frameMeta lm, ⟨⟨T, T, T⟩, i.draw, i.wall, T⟩)
    | _ => none
  now := T
  due := T
  sends := i.sends
  announce := ⟨i.random, i.packetId, T, T⟩
  announceOk := i.announceOk
  tick := ⟨i.wall, T, T, T⟩
  expireNow := i.wall
  expireCold := i.wall

/-- No wait is longer than the timeout, and the draw is one of `random.uniform`. -/
structure Fits (i : Air) : Prop where
  wait_ge : 0 ≤ i.wait
  wait_le : i.wait ≤ MonitorLink.timeout
  draw_ge : 0 ≤ i.draw
  draw_le : i.draw ≤ 1

theorem schedule_turn {i : Air} {T : ℚ} {g : Bytes × FrameMeta × HandleClock}
    (h : (i.turn T).got = some g) : g.2.2.receive.schedule = T ∧ g.2.2.draw = i.draw := by
  simp only [turn] at h
  split at h
  · obtain rfl := Option.some.inj h
    exact ⟨rfl, rfl⟩
  · cases h

end Air

namespace Node

variable {c : Crypto} {n n' u : Node} {T : ℚ} {i : Air}

/-- The timeout that `poll` computes, and does not hand to `recv`. -/
def pollTimeout (n : Node) (timeout mono : ℚ) : ℚ :=
  match n.flooder.nextDeadline with
  | none => timeout
  | some deadline => max 0 (min timeout (deadline - mono))

/-- A turn that begins at the time of the state. -/
def timedPoll (c : Crypto) (s : Node × ℚ) (i : Air) :
    Option ((Node × ℚ) × (List Event × Bool)) :=
  (s.1.poll c (i.turn (s.2 + i.wait))).map fun r => ((r.1, s.2 + i.wait), r.2)

theorem sendAt_receive {got : Option (Bytes × FrameMeta × HandleClock)} {es : List Event}
    (h : n.receive c got = some (u, es)) {key : Key} {p : Pending}
    (hp : u.flooder.pending.get? key = some p) :
    (∃ q, n.flooder.pending.get? key = some q ∧ p.sendAt = q.sendAt) ∨
      ∃ g, got = some g ∧
        p.sendAt = g.2.2.receive.schedule + relayDelay g.2.1.rssi g.2.2.draw := by
  cases got with
  | none =>
    obtain ⟨rfl, -⟩ := Prod.mk.inj (Option.some.inj h)
    exact Or.inl ⟨p, hp, rfl⟩
  | some g =>
    have hg : n.handle c g.1 g.2.1 g.2.2 = some (u, es) := h
    rcases flooder_handle hg with ⟨-, -, hsame⟩ | ⟨pkt, v, -, hr⟩
    · exact Or.inl ⟨p, hsame ▸ hp, rfl⟩
    · rcases Flooder.entry_onReceive hr hp with ⟨q, hq, -, hsend⟩ | ⟨-, hsend⟩
      · exact Or.inl ⟨q, hq, hsend⟩
      · exact Or.inr ⟨g, rfl, hsend⟩

theorem flooder_maintain {i : Turn} {es : List Event} (h : n.maintain i = some (n', es)) :
    n'.flooder = n.flooder := by
  obtain ⟨t, -, he⟩ := Option.map_eq_some_iff.mp h
  dsimp only at he
  split_ifs at he
  · obtain ⟨rfl, -⟩ := Prod.mk.inj he
    rfl
  · obtain ⟨rfl, -⟩ := Prod.mk.inj he
    rfl

/-- After a turn, what is pending is what `due` left. -/
theorem pending_poll {i : Turn} {es : List Event} {ok : Bool}
    (h : n.poll c i = some (n', es, ok)) :
    ∃ u e, n.receive c i.got = some (u, e) ∧
      n'.flooder.pending = (u.flooder.due i.due).2.pending := by
  have hdue {u n₁ : Node} {e₁ : List Event} {done : Bool}
      (h₁ : u.relayDue i.due i.sends = some (n₁, e₁, done)) :
      n₁.flooder.pending = (u.flooder.due i.due).2.pending :=
    congrArg Flooder.pending (flooder_relayDue h₁)
  have hann {n₁ n₂ : Node} {e₂ : List Event} {done : Bool}
      (h₂ : n₁.announceStep i.announce i.announceOk = some (n₂, e₂, done)) :
      n₂.flooder.pending = n₁.flooder.pending := by
    rw [announceStep_eq h₂, (edge_sendAnnounce n₁ _ _).2]
    rfl
  cases poll_cases h with
  | relayFailed h₀ h₁ => exact ⟨_, _, h₀, hdue h₁⟩
  | announceFailed h₀ h₁ h₂ => exact ⟨_, _, h₀, (hann h₂).trans (hdue h₁)⟩
  | announced h₀ h₁ h₂ h₃ =>
    refine ⟨_, _, h₀, ?_⟩
    rw [flooder_maintain h₃]
    exact (hann h₂).trans (hdue h₁)
  | quiet h₀ h₁ h₃ =>
    refine ⟨_, _, h₀, ?_⟩
    rw [flooder_maintain h₃]
    exact hdue h₁

/-- At the end of the wait, a relay was pending before it or is not yet due. -/
theorem sendAt_cases {i : Air} (hi : i.Fits) {es : List Event}
    (h : n.receive c (i.turn T).got = some (u, es)) {key : Key} {p : Pending}
    (hp : u.flooder.pending.get? key = some p) :
    (∃ q, n.flooder.pending.get? key = some q ∧ p.sendAt = q.sendAt) ∨
      T < p.sendAt ∧ p.sendAt ≤ T + cwMax := by
  refine (sendAt_receive h hp).imp_right ?_
  rintro ⟨g, hg, hsend⟩
  obtain ⟨hT, hdraw⟩ := Air.schedule_turn hg
  obtain ⟨hmin, hmax⟩ := relayDelay_mem g.2.1.rssi hi.draw_ge hi.draw_le
  have hpos : 0 < cwMin := by norm_num [cwMin]
  rw [hsend, hT, hdraw]
  constructor <;> linarith

/-- A turn leaves only relays that are due after it. -/
theorem waits_timedPoll {s s' : Node × ℚ} {o : List Event × Bool} (hs : s.1.flooder.Waits s.2)
    (hi : i.Fits) (h : timedPoll c s i = some (s', o)) : s'.1.flooder.Waits s'.2 := by
  obtain ⟨⟨n', es, ok⟩, hpoll, he⟩ := Option.map_eq_some_iff.mp h
  obtain ⟨rfl, -⟩ := Prod.mk.inj he
  obtain ⟨u, e, hu, hpending⟩ := pending_poll hpoll
  intro key p hp
  dsimp only at hp ⊢
  rw [hpending, Flooder.get?_pending_due, Option.filter_eq_some_iff] at hp
  obtain ⟨hp, hlate⟩ := hp
  have hlate : s.2 + i.wait < p.sendAt := by simpa [Air.turn] using hlate
  refine ⟨hlate, ?_⟩
  rcases sendAt_cases hi hu hp with ⟨q, hq, heq⟩ | ⟨-, hle⟩
  · have hle := (hs key q hq).2
    have hwait := hi.wait_ge
    linarith
  · exact hle

/-- No relay goes out later than `δ` after its time. -/
def SentWithin (c : Crypto) (δ : ℚ) (s : Node × ℚ) (i : Air) : Prop :=
  ∀ u e n' es ok key q, s.1.receive c (i.turn (s.2 + i.wait)).got = some (u, e) →
    s.1.poll c (i.turn (s.2 + i.wait)) = some (n', es, ok) →
    u.flooder.pending.get? key = some q → q.sendAt ≤ s.2 + i.wait → q.packet ∈ relayedIn es →
    s.2 + i.wait ≤ q.sendAt + δ

/-- What a turn promises: its relays are late by no more than the longest poll, and the wait
ends by the time of the next one. -/
structure OnTime (c : Crypto) (s : Node × ℚ) (i : Air) : Prop where
  sent : SentWithin c maxPoll s i
  wakes : ∀ d, s.1.flooder.nextDeadline = some d → s.2 + i.wait ≤ d

/-- Something arrives by the time of the next relay. -/
def Heard (s : Node × ℚ) (i : Air) : Prop :=
  ∀ d, s.1.flooder.nextDeadline = some d → ∃ after buf, i.heard = some (after, buf) ∧
    s.2 + after ≤ d

/-- A relay that was scheduled in the turn is not due in it. -/
theorem sentWithin_of_pending {s : Node × ℚ} {δ : ℚ} (hi : i.Fits)
    (h : ∀ key p, s.1.flooder.pending.get? key = some p → s.2 + i.wait ≤ p.sendAt + δ) :
    SentWithin c δ s i := by
  intro u e n' es ok key q hu _ hq hdue _
  rcases sendAt_cases hi hu hq with ⟨p, hp, heq⟩ | ⟨hlt, -⟩
  · rw [heq]
    exact h key p hp
  · exact absurd hdue (not_le.mpr hlt)

/-- A wait that ends by the time of the next relay is in time for all of them. -/
theorem onTime_of_wakes {s : Node × ℚ} (hi : i.Fits)
    (h : ∀ d, s.1.flooder.nextDeadline = some d → s.2 + i.wait ≤ d) : OnTime c s i where
  sent := sentWithin_of_pending hi fun key p hp => by
    obtain ⟨d, hd, hle⟩ := Flooder.nextDeadline_le hp
    have hpos : 0 < maxPoll := by norm_num [maxPoll]
    have hwake := h d hd
    linarith
  wakes := h

/-- The timeout of the socket bounds how late a relay is, whatever the air does. -/
theorem sentWithin_timeout {s : Node × ℚ} (hs : s.1.flooder.Waits s.2) (hi : i.Fits) :
    SentWithin c MonitorLink.timeout s i :=
  sentWithin_of_pending hi fun key p hp => by
    have hlate := (hs key p hp).1
    have hwait := hi.wait_le
    linarith

theorem onTime_iff_heard {s : Node × ℚ} (hs : s.1.flooder.Waits s.2) (hi : i.Fits) :
    OnTime c s i ↔ Heard s i := by
  constructor
  · intro h d hd
    have hwake := h.wakes d hd
    obtain ⟨key, p, hp, rfl⟩ := Flooder.exists_of_nextDeadline hd
    cases hheard : i.heard with
    | none =>
      -- silence takes the whole timeout, which no relay waits for
      have hwait : i.wait = MonitorLink.timeout := by rw [Air.wait, hheard]
      have hnext := (hs key p hp).2
      rw [hwait] at hwake
      norm_num [MonitorLink.timeout, cwMax] at hwake hnext
      linarith
    | some a =>
      have hwait : i.wait = a.1 := by rw [Air.wait, hheard]
      exact ⟨a.1, a.2, rfl, hwait ▸ hwake⟩
  · intro h
    refine onTime_of_wakes hi fun d hd => ?_
    obtain ⟨after, buf, hheard, hle⟩ := h d hd
    rwa [Air.wait, hheard]

/-- The timeout that `poll` computes would do. -/
theorem onTime_of_pollTimeout {s : Node × ℚ} (hs : s.1.flooder.Waits s.2) (hi : i.Fits)
    (h : i.wait ≤ s.1.pollTimeout maxPoll s.2) : OnTime c s i := by
  refine onTime_of_wakes hi fun d hd => ?_
  obtain ⟨key, p, hp, rfl⟩ := Flooder.exists_of_nextDeadline hd
  have hlate := (hs key p hp).1
  rw [pollTimeout, hd] at h
  have hle : max 0 (min maxPoll (p.sendAt - s.2)) ≤ p.sendAt - s.2 :=
    max_le (by linarith) (min_le_right _ _)
  linarith

end Node

open Node

section Runs

variable {c : Crypto} (iface : String) (identity : Identity) (interval : ℚ) (name : String)
  (cold : Option ColdStore) (hopLimit : ℤ) (mono started T₀ : ℚ) {is : List Air}

theorem eachStep_fresh {Q Q' : Node × ℚ → Air → Prop}
    (h : ∀ {s i}, s.1.flooder.Waits s.2 → i.Fits → Q s i → Q' s i) (hfits : ∀ i ∈ is, i.Fits)
    (hQ : EachStep (timedPoll c) Q
      (.new iface identity interval name cold hopLimit mono started, T₀) is) :
    EachStep (timedPoll c) Q'
      (.new iface identity interval name cold hopLimit mono started, T₀) is := by
  refine @eachStep_imp _ _ _ _ (fun s : Node × ℚ => s.1.flooder.Waits s.2) Air.Fits Q Q'
    waits_timedPoll h _ _ ?_ hfits hQ
  intro key p hp
  cases hp

/-- In every run of turns from a fresh node: the relays of each turn are on time, and no
wait passes the time of the next relay, exactly when in each turn that begins with a relay
pending something arrives by the time of the earliest. -/
theorem relays_on_time_iff (hfits : ∀ i ∈ is, i.Fits) :
    EachStep (timedPoll c) (OnTime c)
        (.new iface identity interval name cold hopLimit mono started, T₀) is ↔
      EachStep (timedPoll c) Heard
        (.new iface identity interval name cold hopLimit mono started, T₀) is :=
  ⟨eachStep_fresh _ _ _ _ _ _ _ _ _ (fun hs hi => (onTime_iff_heard hs hi).mp) hfits,
    eachStep_fresh _ _ _ _ _ _ _ _ _ (fun hs hi => (onTime_iff_heard hs hi).mpr) hfits⟩

/-- A `recv` that waited no longer than `poll` computes would keep the relays on time. -/
theorem relays_on_time_of_pollTimeout (hfits : ∀ i ∈ is, i.Fits)
    (hwait : EachStep (timedPoll c) (fun s i => i.wait ≤ s.1.pollTimeout maxPoll s.2)
      (.new iface identity interval name cold hopLimit mono started, T₀) is) :
    EachStep (timedPoll c) (OnTime c)
      (.new iface identity interval name cold hopLimit mono started, T₀) is :=
  eachStep_fresh _ _ _ _ _ _ _ _ _ (fun hs hi => onTime_of_pollTimeout hs hi) hfits hwait

/-- As it is, a relay may be late by the timeout of the socket, and by no more. -/
theorem relays_within_timeout (hfits : ∀ i ∈ is, i.Fits) :
    EachStep (timedPoll c) (SentWithin c MonitorLink.timeout)
      (.new iface identity interval name cold hopLimit mono started, T₀) is :=
  eachStep_fresh _ _ _ _ _ _ _ _ _ (fun {_ _} hs hi (_ : True) => sentWithin_timeout hs hi) hfits
    (fun _ _ _ _ _ _ _ => trivial)

end Runs

/-! ### Two turns -/

def airOf (heard : Option (ℚ × Bytes)) : Air where
  heard := heard
  wall := 100
  draw := 0
  sends := 2
  random := ⟨List.replicate randomLen 0, length_zeros⟩
  packetId := packetIdOf 5
  announceOk := true

/-- An announce of another node, which is relayed after 90 ms. -/
def announceDatagram : Bytes :=
  sampleRadiotap ++ (MonitorLink.mk "wlan2" (macOf 1) []).dot11 ++ (sampleAnnounce 3).frame ++
    [1, 2, 3, 4]

/-- An empty datagram ends the wait in time. -/
theorem relays_on_time_heard : EachStep (timedPoll sampleCrypto) (OnTime sampleCrypto)
    (sampleStart, 0) [airOf (some (0, announceDatagram)), airOf (some (9 / 100, []))] := by
  have hrun : (timedPoll sampleCrypto (sampleStart, 0)
      (airOf (some (0, announceDatagram)))).bind (fun r =>
        (timedPoll sampleCrypto r.1 (airOf (some (9 / 100, [])))).map fun _ =>
          decide (r.1.2 = 0 ∧ r.1.1.flooder.nextDeadline = some (9 / 100))) = some true := by
    decide +kernel
  obtain ⟨⟨s₁, o₁⟩, h₁, hrun⟩ := Option.bind_eq_some_iff.mp hrun
  obtain ⟨⟨s₂, o₂⟩, h₂, hto⟩ := Option.map_eq_some_iff.mp hrun
  obtain ⟨htime, hnext⟩ := of_decide_eq_true hto
  have hfits : ∀ i ∈ [airOf (some (0, announceDatagram)), airOf (some (9 / 100, []))],
      i.Fits := by
    intro i hi
    simp only [List.mem_cons, List.not_mem_nil, or_false] at hi
    rcases hi with rfl | rfl
    all_goals constructor <;> norm_num [Air.wait, airOf, MonitorLink.timeout]
  have hheard : EachStep (timedPoll sampleCrypto) Heard (sampleStart, 0)
      [airOf (some (0, announceDatagram)), airOf (some (9 / 100, []))] := by
    rw [eachStep_cons_iff h₁, eachStep_cons_iff h₂]
    refine ⟨fun d hd => ?_, fun d hd => ⟨9 / 100, [], rfl, ?_⟩, eachStep_nil _ _⟩
    · cases hd
    · obtain rfl := Option.some.inj (hnext.symm.trans hd)
      rw [htime, zero_add]
  exact (relays_on_time_iff _ _ _ _ _ _ _ _ _ hfits).mpr hheard

/-- Silence: the wait passes the time of the relay, which goes out 0.91 seconds late. -/
theorem relay_late_on_silent_air : ∃ s₁ s₂ o₁ es q,
    timedPoll sampleCrypto (sampleStart, 0) (airOf (some (0, announceDatagram))) =
      some (s₁, o₁) ∧
    timedPoll sampleCrypto s₁ (airOf none) = some (s₂, (es, true)) ∧
    s₁.1.flooder.pending.get? (sampleAnnounce 3).key = some q ∧
    s₁.1.flooder.nextDeadline = some q.sendAt ∧ q.packet ∈ relayedIn es ∧
    q.sendAt + maxPoll < s₂.2 := by
  have hrun : (timedPoll sampleCrypto (sampleStart, 0)
      (airOf (some (0, announceDatagram)))).bind (fun r =>
        (timedPoll sampleCrypto r.1 (airOf none)).bind fun r' =>
          (r.1.1.flooder.pending.get? (sampleAnnounce 3).key).map fun q =>
            decide (r.1.1.flooder.nextDeadline = some q.sendAt ∧ r'.2.2 = true ∧
              q.packet ∈ relayedIn r'.2.1 ∧ q.sendAt + maxPoll < r'.1.2)) = some true := by
    decide +kernel
  obtain ⟨⟨s₁, o₁⟩, h₁, hrun⟩ := Option.bind_eq_some_iff.mp hrun
  obtain ⟨⟨s₂, es, ok⟩, h₂, hrun⟩ := Option.bind_eq_some_iff.mp hrun
  obtain ⟨q, hq, hto⟩ := Option.map_eq_some_iff.mp hrun
  obtain ⟨hnext, rfl, hsent, hlate⟩ := of_decide_eq_true hto
  exact ⟨s₁, s₂, o₁, es, q, h₁, h₂, hq, hnext, hsent, hlate⟩

end Beachedmesh
