import Beachedmesh.Daemon

/-!
# When a node announces

The timer fires in the first turn that finds it due and is set one interval ahead once the
announce has gone out. A client that asks for an announce sets it too, and a failed send
does not. So announces come no faster than the interval, and after no complete turn is one
overdue.
-/
namespace Beachedmesh
open Machine

/-- The node has sent an announce. -/
def Event.isAnnounceSent : Event → Bool
  | .announceSent _ => true
  | _ => false

def announcesIn (es : List Event) : ℕ := es.countP Event.isAnnounceSent

@[simp] theorem announcesIn_nil : announcesIn [] = 0 := rfl

@[simp] theorem announcesIn_append (es es' : List Event) :
    announcesIn (es ++ es') = announcesIn es + announcesIn es' := List.countP_append

namespace Node

variable {c : Crypto} {n n' : Node} {es : List Event}

/-- The timer is as it was, and nothing was announced. -/
structure Untimed (n n' : Node) (es : List Event) : Prop where
  next_eq : n'.nextAnnounce = n.nextAnnounce
  interval_eq : n'.announceInterval = n.announceInterval
  silent : announcesIn es = 0

theorem Untimed.trans {n'' : Node} {es' : List Event} (h : Untimed n n' es)
    (h' : Untimed n' n'' es') : Untimed n n'' (es ++ es') where
  next_eq := h'.next_eq.trans h.next_eq
  interval_eq := h'.interval_eq.trans h.interval_eq
  silent := by rw [announcesIn_append, h.silent, h'.silent]

theorem untimed_receive {got : Option (Bytes × FrameMeta × HandleClock)}
    (h : n.receive c got = some (n', es)) : Untimed n n' es := by
  cases got with
  | none =>
    obtain ⟨rfl, rfl⟩ := Prod.mk.inj (Option.some.inj h)
    exact ⟨rfl, rfl, rfl⟩
  | some g =>
    have hg : n.handle c g.1 g.2.1 g.2.2 = some (n', es) := h
    cases handle_cases hg <;> exact ⟨rfl, rfl, rfl⟩

theorem Relays.silent {ps : List Packet} (h : Relays ps es) : announcesIn es = 0 := by
  induction h with
  | nil => rfl
  | cons _ _ ih => exact ih

theorem untimed_relayDue {now : ℚ} {sends : ℕ} {done : Bool}
    (h : n.relayDue now sends = some (n', es, done)) : Untimed n n' es := by
  obtain ⟨hrelays, -, stats, rfl⟩ := relays_sendRelays h
  exact ⟨rfl, rfl, hrelays.silent⟩

theorem untimed_maintain {i : Turn} (h : n.maintain i = some (n', es)) : Untimed n n' es := by
  obtain ⟨t, -, he⟩ := Option.map_eq_some_iff.mp h
  dsimp only at he
  split_ifs at he
  · obtain ⟨rfl, rfl⟩ := Prod.mk.inj he
    refine ⟨rfl, rfl, List.countP_eq_zero.mpr fun e hmem => ?_⟩
    obtain ⟨nid, -, rfl⟩ := List.mem_map.mp hmem
    exact Bool.false_ne_true
  · obtain ⟨rfl, rfl⟩ := Prod.mk.inj he
    exact ⟨rfl, rfl, rfl⟩

/-- An announce that goes out sets the timer; one that does not leaves it. -/
theorem timer_announceStep {d : AnnounceDraw} {ok done : Bool}
    (h : n.announceStep d ok = some (n', es, done)) :
    n'.announceInterval = n.announceInterval ∧
      if done then announcesIn es = 1 ∧ n'.nextAnnounce = d.nextFrom + n.announceInterval
      else announcesIn es = 0 ∧ n'.nextAnnounce = n.nextAnnounce := by
  obtain ⟨rfl, rfl, b, hb, rfl⟩ := announceStep_cases h
  unfold sendAnnounce
  simp only [hb]
  cases done with
  | true => exact ⟨rfl, rfl, rfl⟩
  | false => exact ⟨rfl, rfl, rfl⟩

/-- A turn announces only with the timer due, and completes with the timer ahead. -/
theorem timer_poll {i : Turn} {ok : Bool} (h : n.poll c i = some (n', es, ok)) :
    n'.announceInterval = n.announceInterval ∧
      (announcesIn es = 0 ∧ n'.nextAnnounce = n.nextAnnounce ∧
          (ok = true → i.now < n.nextAnnounce) ∨
        announcesIn es = 1 ∧ n.nextAnnounce ≤ i.now ∧
          n'.nextAnnounce = i.announce.nextFrom + n.announceInterval) := by
  obtain ⟨⟨n₀, e₀⟩, h₀, h⟩ := Option.bind_eq_some_iff.mp h
  obtain ⟨⟨n₁, e₁, ok₁⟩, h₁, h⟩ := Option.bind_eq_some_iff.mp h
  have hsent := (untimed_receive h₀).trans (untimed_relayDue h₁)
  dsimp only at h
  cases ok₁ with
  | false =>
    obtain ⟨rfl, he⟩ := Prod.mk.inj (Option.some.inj h)
    obtain ⟨rfl, rfl⟩ := Prod.mk.inj he
    exact ⟨hsent.interval_eq, Or.inl ⟨hsent.silent, hsent.next_eq, Bool.false_ne_true.elim⟩⟩
  | true =>
    obtain ⟨⟨n₂, e₂, ok₂⟩, h₂, h⟩ := Option.bind_eq_some_iff.mp h
    dsimp only at h
    split_ifs at h₂ with hdue
    · obtain ⟨hinterval, hset⟩ := timer_announceStep h₂
      cases ok₂ with
      | false =>
        obtain ⟨rfl, he⟩ := Prod.mk.inj (Option.some.inj h)
        obtain ⟨rfl, rfl⟩ := Prod.mk.inj he
        obtain ⟨hnone, hnext⟩ := hset
        refine ⟨hinterval.trans hsent.interval_eq, Or.inl ⟨?_, hnext.trans hsent.next_eq,
          Bool.false_ne_true.elim⟩⟩
        rw [← List.append_assoc, announcesIn_append, hsent.silent, hnone]
      | true =>
        obtain ⟨⟨n₃, e₃⟩, h₃, he⟩ := Option.map_eq_some_iff.mp h
        simp only [Prod.mk.injEq] at he
        obtain ⟨rfl, rfl, rfl⟩ := he
        obtain ⟨hone, hnext⟩ := hset
        have hlast := untimed_maintain h₃
        refine ⟨hlast.interval_eq.trans (hinterval.trans hsent.interval_eq), Or.inr ⟨?_, ?_, ?_⟩⟩
        · have hbefore := hsent.silent
          have hafter := hlast.silent
          simp only [announcesIn_append] at hbefore ⊢
          omega
        · exact hsent.next_eq ▸ hdue
        · rw [hlast.next_eq, hnext, hsent.interval_eq]
    · obtain ⟨rfl, he⟩ := Prod.mk.inj (Option.some.inj h₂)
      obtain ⟨rfl, rfl⟩ := Prod.mk.inj he
      obtain ⟨⟨n₃, e₃⟩, h₃, he⟩ := Option.map_eq_some_iff.mp h
      simp only [List.nil_append, Prod.mk.injEq] at he
      obtain ⟨rfl, rfl, rfl⟩ := he
      have hall := hsent.trans (untimed_maintain h₃)
      rw [List.append_assoc] at hall
      refine ⟨hall.interval_eq, Or.inl ⟨hall.silent, hall.next_eq, fun _ => ?_⟩⟩
      exact hsent.next_eq ▸ not_le.mp hdue

end Node

open Node

/-! ### Clients -/

namespace Control

variable {E : Runtime} {n n' : Node} {k : Connection} {ks : List Connection} {T T' : ℚ}

/-- What serving does to the timer: a client that asks for an announce may set it ahead. -/
structure Served (n n' : Node) (T' : ℚ) : Prop where
  interval_eq : n'.announceInterval = n.announceInterval
  le_next : n.nextAnnounce ≤ n'.nextAnnounce
  next_le : n'.nextAnnounce ≤ T' + n.announceInterval

theorem Served.trans {n'' : Node} (h : Served n n' T) (h' : Served n' n'' T') :
    Served n n'' T' where
  interval_eq := h'.interval_eq.trans h.interval_eq
  le_next := h.le_next.trans h'.le_next
  next_le := h.interval_eq ▸ h'.next_le

theorem announcesIn_serveEvents_le (E : Runtime) (n : Node) (k : Connection) :
    announcesIn (serveEvents E n k) ≤ if announces E k then 1 else 0 := by
  unfold serveEvents
  split_ifs with hk
  · unfold sendAnnounce
    dsimp only
    split
    · next r hr =>
      split at hr
      · cases hr
      · split_ifs at hr
        cases hr
        exact le_rfl
    · exact Nat.zero_le _
  · exact le_rfl

theorem timer_serve (E : Runtime) (hle : T ≤ k.draw.nextFrom)
    (hnext : n.nextAnnounce ≤ T + n.announceInterval) :
    Served n (serve E n k).1 k.draw.nextFrom := by
  have hkeep : n.nextAnnounce ≤ k.draw.nextFrom + n.announceInterval :=
    hnext.trans (add_le_add_left hle _)
  rw [fst_serve]
  split_ifs
  · unfold sendAnnounce
    dsimp only
    split
    · exact ⟨rfl, le_rfl, hkeep⟩
    · split_ifs
      · exact ⟨rfl, hkeep, le_rfl⟩
      · exact ⟨rfl, le_rfl, hkeep⟩
  · exact ⟨rfl, le_rfl, hkeep⟩

theorem timer_serveAll {rs : List (Option Json)} (h : serveAll E n ks = (n', .ok rs))
    (hticks : Ticks T T' (ks.map fun k => k.draw.nextFrom))
    (hnext : n.nextAnnounce ≤ T + n.announceInterval) :
    Served n n' T' ∧ announcesIn (serveAllEvents E n ks) ≤ ks.countP (announces E) := by
  induction ks generalizing n rs T with
  | nil =>
    obtain ⟨rfl, -⟩ := Prod.mk.inj h
    exact ⟨⟨rfl, le_rfl, hnext.trans (add_le_add_left hticks.le _)⟩, le_rfl⟩
  | cons k ks ih =>
    have hone := timer_serve E (hticks.lower _ List.mem_cons_self) hnext
    have hevents := announcesIn_serveEvents_le E n k
    have hrest : Ticks k.draw.nextFrom T' (ks.map fun k => k.draw.nextFrom) :=
      ⟨hticks.upper _ List.mem_cons_self, (List.pairwise_cons.mp hticks.mono).1,
        fun r hr => hticks.upper r (List.mem_cons_of_mem _ hr),
        (List.pairwise_cons.mp hticks.mono).2⟩
    rw [serveAll] at h
    rw [serveAllEvents, List.countP_cons]
    rcases hserve : serve E n k with ⟨u, e | r⟩
    · rw [hserve] at h
      cases h
    · rw [hserve] at h hone
      obtain ⟨hn, hr⟩ := Prod.mk.inj h
      cases hall : (serveAll E u ks).2 with
      | error e =>
        rw [hall] at hr
        cases hr
      | ok rs' =>
        have hu := hone.next_le
        rw [← hone.interval_eq] at hu
        obtain ⟨hserved, hcount⟩ := ih (Prod.ext hn hall) hrest hu
        refine ⟨hone.trans hserved, ?_⟩
        rw [announcesIn_append]
        omega

theorem timer_controlPoll {listening : Bool} {rs : List (Option Json)}
    (h : Control.poll E listening n ks = (n', .ok rs))
    (hticks : Ticks T T' (ks.map fun k => k.draw.nextFrom))
    (hnext : n.nextAnnounce ≤ T + n.announceInterval) :
    Served n n' T' ∧ announcesIn (if listening then serveAllEvents E n ks else []) ≤
      ks.countP (announces E) := by
  cases listening with
  | true => exact timer_serveAll h hticks hnext
  | false =>
    obtain ⟨rfl, -⟩ := Prod.mk.inj h
    exact ⟨⟨rfl, le_rfl, hnext.trans (add_le_add_left hticks.le _)⟩, Nat.zero_le _⟩

end Control

/-! ### The daemon -/

namespace Daemon

variable {E : Runtime} {c : Crypto} {d d' : Daemon} {o : Output} {T T' T₀ : ℚ}

namespace Input

/-- The readings of the monotonic clock that the timer depends on. -/
def timed : Input → List ℚ
  | .turn i ks _ _ => i.now :: i.announce.nextFrom :: ks.map fun k => k.draw.nextFrom
  | _ => []

/-- How many clients ask for an announce. -/
def asked (E : Runtime) : Input → ℕ
  | .turn _ ks _ _ => ks.countP (Control.announces E)
  | _ => 0

end Input

/-- What a pass of the loop does to the timer: every announce but the `m` that were asked
for moves it on by an interval, and from no earlier than `T`. -/
structure OnTime (m : ℕ) (n n' : Node) (es : List Event) (T T' : ℚ) : Prop where
  interval_eq : n'.announceInterval = n.announceInterval
  next_le : n'.nextAnnounce ≤ T' + n.announceInterval
  le_next : n.nextAnnounce ≤ n'.nextAnnounce
  moved : ∃ a : ℕ, announcesIn es ≤ m + a ∧
    (a = 0 ∨ a = 1 ∧ max n.nextAnnounce T + n.announceInterval ≤ n'.nextAnnounce)

theorem OnTime.still {n : Node} (hle : T ≤ T') (hnext : n.nextAnnounce ≤ T + n.announceInterval) :
    OnTime 0 n n [] T T' :=
  ⟨rfl, hnext.trans (add_le_add_left hle _), le_rfl, 0, le_rfl, Or.inl rfl⟩

theorem onTime_poll {n n' : Node} {i : Turn} {es : List Event} {ok : Bool}
    (hI : 0 < n.announceInterval) (hnext : n.nextAnnounce ≤ T + n.announceInterval)
    (hnow : T ≤ i.now) (hfrom : i.now ≤ i.announce.nextFrom)
    (h : n.poll c i = some (n', es, ok)) :
    OnTime 0 n n' es T i.announce.nextFrom ∧ (ok = true → i.now < n'.nextAnnounce) := by
  obtain ⟨hinterval, ⟨hnone, hsame, hahead⟩ | ⟨hone, hdue, hset⟩⟩ := timer_poll h
  · have hle : n.nextAnnounce ≤ i.announce.nextFrom + n.announceInterval :=
      hnext.trans (add_le_add_left (hnow.trans hfrom) _)
    exact ⟨⟨hinterval, hsame ▸ hle, hsame.ge, 0, hnone.le, Or.inl rfl⟩, fun hok =>
      hsame ▸ hahead hok⟩
  · refine ⟨⟨hinterval, hset.le, ?_, 1, hone.le, Or.inr ⟨rfl, ?_⟩⟩, fun _ => ?_⟩
    · rw [hset]
      linarith
    · rw [hset]
      exact add_le_add_left ((max_le hdue hnow).trans hfrom) _
    · rw [hset]
      linarith

/-- With the timer ahead of the turn, if the turn completes. -/
theorem onTime_turn {i : Turn} {ks : List Connection} {check reportedAt : ℚ}
    (hI : 0 < d.node.announceInterval)
    (hnext : d.node.nextAnnounce ≤ T + d.node.announceInterval)
    (hticks : Ticks T T' (Input.turn i ks check reportedAt).timed)
    (h : d.turn E c i ks check reportedAt = some (d', o)) :
    OnTime ((Input.turn i ks check reportedAt).asked E) d.node d'.node o.events T T' ∧
      (d'.phase = .running → i.now < d'.node.nextAnnounce) := by
  have hmono := hticks.mono
  simp only [Input.timed, List.pairwise_cons] at hmono
  obtain ⟨hnow, hfrom, hclients⟩ := hmono
  have hT := hticks.lower i.now List.mem_cons_self
  have hT' := hticks.upper i.announce.nextFrom (List.mem_cons_of_mem _ List.mem_cons_self)
  cases turn_cases h with
  | failed hpoll =>
    obtain ⟨hone, -⟩ := onTime_poll hI hnext hT (hnow _ List.mem_cons_self) hpoll
    obtain ⟨a, hcount, hmoved⟩ := hone.moved
    refine ⟨⟨hone.interval_eq, hone.next_le.trans (add_le_add_left hT' _), hone.le_next, a, ?_,
      hmoved⟩, fun hphase => by cases hphase⟩
    exact hcount.trans (Nat.add_le_add_right (Nat.zero_le _) a)
  | @served n n' es replies hpoll hserved =>
    obtain ⟨hone, hahead⟩ := onTime_poll hI hnext hT (hnow _ List.mem_cons_self) hpoll
    obtain ⟨a, hcount, hmoved⟩ := hone.moved
    have hrest : Ticks i.announce.nextFrom T' (ks.map fun k => k.draw.nextFrom) :=
      ⟨hT', hfrom, fun r hr => hticks.upper r (List.mem_cons_of_mem _ (List.mem_cons_of_mem _ hr)),
        hclients⟩
    obtain ⟨htwo, hasked⟩ := Control.timer_controlPoll hserved hrest
      (hone.interval_eq ▸ hone.next_le)
    refine ⟨⟨htwo.interval_eq.trans hone.interval_eq, hone.interval_eq ▸ htwo.next_le,
      hone.le_next.trans htwo.le_next, a, ?_, hmoved.imp_right fun ⟨ha, hle⟩ =>
        ⟨ha, hle.trans htwo.le_next⟩⟩, fun _ => (hahead rfl).trans_le htwo.le_next⟩
    dsimp only [Input.asked]
    rw [announcesIn_append]
    omega

theorem onTime_step {i : Input} (hI : 0 < d.node.announceInterval)
    (hnext : d.node.nextAnnounce ≤ T + d.node.announceInterval) (hticks : Ticks T T' i.timed)
    (h : d.step E c i = some (d', o)) :
    OnTime (i.asked E) d.node d'.node o.events T T' := by
  cases i with
  | turn i ks check reportedAt =>
    obtain ⟨-, hturn⟩ := Option.ite_none_right_eq_some.mp h
    exact (onTime_turn hI hnext hticks hturn).1
  | recvFails =>
    obtain ⟨-, hfails⟩ := Option.ite_none_right_eq_some.mp h
    obtain ⟨rfl, rfl⟩ := Prod.mk.inj (Option.some.inj hfails)
    exact OnTime.still hticks.le hnext
  | retry present usable reopened =>
    obtain ⟨-, hretry⟩ := Option.ite_none_right_eq_some.mp h
    obtain ⟨rfl, rfl⟩ := Prod.mk.inj (Option.some.inj hretry)
    exact OnTime.still hticks.le hnext
  | stop mono =>
    obtain ⟨-, hstop⟩ := Option.ite_none_left_eq_some.mp h
    obtain ⟨rfl, rfl⟩ := Prod.mk.inj (Option.some.inj hstop)
    exact ⟨rfl, hnext.trans (add_le_add_left hticks.le _), le_rfl, 0, le_rfl, Or.inl rfl⟩

/-- A run: the timer has moved on by an interval for each announce that nobody asked for. -/
theorem onTime_exec {ins post : List Input} {os : List Output} {B : ℚ}
    (hI : 0 < d.node.announceInterval)
    (hnext : d.node.nextAnnounce ≤ T + d.node.announceInterval) (hT₀ : T₀ ≤ T) (hB : T ≤ B)
    (hlast : ∀ i ∈ ins, ∀ r ∈ i.timed, r ≤ B) (hclock : Clocked Input.timed T (ins ++ post))
    (hx : exec (step E c) d ins = some (d', os)) :
    ∃ T', T' ≤ B ∧ Clocked Input.timed T' post ∧
      d'.node.announceInterval = d.node.announceInterval ∧
      d'.node.nextAnnounce ≤ T' + d.node.announceInterval ∧
      ∃ a : ℕ, announcesIn (os.flatMap Output.events) ≤ (ins.map (Input.asked E)).sum + a ∧
        max d.node.nextAnnounce T₀ + a * d.node.announceInterval ≤
          max d'.node.nextAnnounce T₀ := by
  induction ins generalizing d T os with
  | nil =>
    obtain ⟨rfl, rfl⟩ := Prod.mk.inj (Option.some.inj hx)
    exact ⟨T, hB, hclock, rfl, hnext, 0, le_rfl, by simp⟩
  | cons i ins ih =>
    obtain ⟨d₁, o, os', hone, hrest, rfl⟩ := exec_cons_iff.mp hx
    obtain ⟨T₁, hmem, hticks, hclock₁⟩ := Clocked.cons_mem hclock
    have hT₁ : T₁ ≤ B := by
      rcases hmem with rfl | hmem
      · exact hB
      · exact hlast i List.mem_cons_self T₁ hmem
    have hstep := onTime_step hI hnext hticks hone
    obtain ⟨T', hle, hclock', hinterval, hnext', a, hcount, hmoved⟩ :=
      ih (hstep.interval_eq ▸ hI) (hstep.interval_eq ▸ hstep.next_le) (hT₀.trans hticks.le) hT₁
        (fun j hj => hlast j (List.mem_cons_of_mem _ hj)) hclock₁ hrest
    rw [hstep.interval_eq] at hinterval hnext' hmoved
    obtain ⟨b, hb, hfirst⟩ := hstep.moved
    refine ⟨T', hle, hclock', hinterval, hnext', b + a, ?_, ?_⟩
    · rw [List.flatMap_cons, announcesIn_append, List.map_cons, List.sum_cons]
      omega
    · have hbase : max d.node.nextAnnounce T₀ + b * d.node.announceInterval ≤
          max d₁.node.nextAnnounce T₀ := by
        rcases hfirst with rfl | ⟨rfl, hset⟩
        · simpa using max_le_max_right T₀ hstep.le_next
        · have hmax : max d.node.nextAnnounce T₀ ≤ max d.node.nextAnnounce T :=
            max_le_max_left _ hT₀
          refine le_max_of_le_left ?_
          push_cast
          linarith
      push_cast
      linarith

end Daemon

/-- Take any run of the daemon under a clock that never goes back, from a state whose timer
is at most an interval ahead, with `T` no earlier than any of its readings. Its announces
are at most those that clients ask for, and one, and one for each interval that has passed;
and after each turn that completes, the timer is ahead, and at most an interval ahead. -/
theorem announces_on_schedule {E : Runtime} {c : Crypto} {d d' : Daemon}
    {ins : List Daemon.Input} {os : List Daemon.Output} {T₀ T : ℚ}
    (hI : 0 < d.node.announceInterval)
    (hnext : d.node.nextAnnounce ≤ T₀ + d.node.announceInterval)
    (hclock : Clocked Daemon.Input.timed T₀ ins) (hT : T₀ ≤ T)
    (hlast : ∀ i ∈ ins, ∀ r ∈ i.timed, r ≤ T)
    (hx : exec (Daemon.step E c) d ins = some (d', os)) :
    (announcesIn (os.flatMap Daemon.Output.events) : ℚ) ≤
        (ins.map (Daemon.Input.asked E)).sum + 1 + (T - T₀) / d.node.announceInterval ∧
      ∀ pre i ks check reportedAt post s o os', ins = pre ++ .turn i ks check reportedAt :: post →
        exec (Daemon.step E c) d (pre ++ [.turn i ks check reportedAt]) = some (s, os' ++ [o]) →
        s.phase = .running →
        i.now < s.node.nextAnnounce ∧
          s.node.nextAnnounce ≤ T + d.node.announceInterval := by
  constructor
  · have hwhole : Clocked Daemon.Input.timed T₀ (ins ++ []) := by simpa using hclock
    obtain ⟨T', hle, -, -, hlater, a, hcount, hmoved⟩ :=
      Daemon.onTime_exec hI hnext le_rfl hT hlast hwhole hx
    have hend : max d'.node.nextAnnounce T₀ ≤ T + d.node.announceInterval :=
      max_le (by linarith) (by linarith)
    have hstart : T₀ ≤ max d.node.nextAnnounce T₀ := le_max_right _ _
    have hmoves : (a : ℚ) ≤ 1 + (T - T₀) / d.node.announceInterval := by
      rw [← div_self hI.ne', ← add_div, le_div_iff₀ hI]
      linarith
    have hcast : (announcesIn (os.flatMap Daemon.Output.events) : ℚ) ≤
        (ins.map (Daemon.Input.asked E)).sum + a := by exact_mod_cast hcount
    linarith
  · rintro pre i ks check reportedAt post s o os' rfl hpre hphase
    obtain ⟨u, os₁, os₂, hbefore, hturn, hos⟩ := exec_append_iff.mp hpre
    obtain ⟨s', o', os₃, hone, hnil, rfl⟩ := exec_cons_iff.mp hturn
    obtain ⟨rfl, rfl⟩ := Prod.mk.inj (Option.some.inj hnil)
    obtain ⟨-, hturn⟩ := Option.ite_none_right_eq_some.mp hone
    obtain ⟨T₁, hle, hclock₁, hinterval, hlater, -⟩ :=
      Daemon.onTime_exec hI hnext le_rfl hT
        (fun j hj => hlast j (List.mem_append_left _ hj)) hclock hbefore
    obtain ⟨T₂, hmem, hticks, -⟩ := hclock₁.cons_mem
    have hT₂ : T₂ ≤ T := by
      rcases hmem with rfl | hmem
      · exact hle
      · exact hlast _ (by simp) T₂ hmem
    obtain ⟨hon, hahead⟩ :=
      Daemon.onTime_turn (hinterval ▸ hI) (hinterval ▸ hlater) hticks hturn
    refine ⟨hahead hphase, hon.next_le.trans ?_⟩
    rw [hinterval]
    exact add_le_add_left hT₂ _

/-- A daemon that starts at time 0, announces at 100 and hears another node there. -/
theorem announces_on_schedule_alone : ∃ (d' : Daemon) (os : List Daemon.Output),
    exec (Daemon.step Control.sampleRuntime sampleCrypto) Daemon.sample [Daemon.sampleTurn.alone] =
      some (d', os) ∧
    (announcesIn (os.flatMap Daemon.Output.events) : ℚ) ≤
      ([Daemon.sampleTurn.alone].map (Daemon.Input.asked Control.sampleRuntime)).sum + 1 +
        (100 - 0) / Daemon.sample.node.announceInterval := by
  have hrun : (exec (Daemon.step Control.sampleRuntime sampleCrypto) Daemon.sample
      [Daemon.sampleTurn.alone]).isSome = true := by decide +kernel
  obtain ⟨⟨d', os⟩, h⟩ := Option.isSome_iff_exists.mp hrun
  refine ⟨d', os, h, (announces_on_schedule (by decide +kernel) (by decide +kernel) ?_
    (by decide) (by decide +kernel) h).1⟩
  unfold Clocked
  decide +kernel

end Beachedmesh
