import Beachedmesh.Ageing
import Beachedmesh.Receive

/-!
# What expiry leaves

The route table of a node on one clock, up to a turn that ticks and expires. The one
gap is a tick itself: a flush forced by one of its settles comes after the reading that
dates the next.
-/
namespace Beachedmesh
open Machine

/-- The node that `learn` was called for. -/
def Event.learnt? : Event → Option NodeId
  | .announce _ pkt _ _ _ => some pkt.src
  | _ => none

namespace Node

variable {c : Crypto} {n n' : Node} {x : NodeId} {δ T T' τ : ℚ} {op : Op} {es : List Event}

/-! ### The route table of a node -/

/-- Every reading of the clock, in the order of the code. `expire` is given one more, from
earlier in its turn. -/
def Op.clock : Op → List ℚ
  | .frame _ _ clk =>
    [clk.receive.lookup, clk.receive.insert, clk.receive.schedule, clk.now, clk.mono]
  | .relay now _ => [now]
  | .announce d _ => [d.seenAt, d.nextFrom]
  | .tick clk => [clk.wall, clk.settled, clk.check, clk.done]
  | .flush mono => [mono]
  | .expire _ now nowCold => [now, nowCold]
  | .nextHop _ => []
  | .warm _ => []

/-- The operation of the route table that a step contains, with the events of the step. -/
inductive Drives : Op → List Event → RouteOp → Prop
  | learn {data : Bytes} {m : FrameMeta} {clk : HandleClock} {e : Event} {cp : Copy} :
      e.learnt? = some cp.nodeId →
      Drives (.frame data m clk) [e] (.learn cp clk.now clk.mono)
  | tick {clk : TickClock} (es : List Event) : Drives (.tick clk) es (.tick clk)
  | flush {mono : ℚ} (es : List Event) : Drives (.flush mono) es (.flush mono)
  | expire {mono now nowCold : ℚ} (es : List Event) :
      Drives (.expire mono now nowCold) es (.expire now nowCold)
  | nextHop {nodeId : NodeId} (es : List Event) : Drives (.nextHop nodeId) es (.nextHop nodeId)
  | warm {limit : Option ℕ} (es : List Event) : Drives (.warm limit) es (.warm limit)

/-- The step calls `learn` for `x` at time `τ`. -/
def Learns (x : NodeId) (τ : ℚ) (op : Op) (es : List Event) : Prop :=
  ∃ data m clk, op = .frame data m clk ∧ clk.now = τ ∧ ∃ e ∈ es, e.learnt? = some x

theorem Learns.mem_clock (h : Learns x τ op es) : τ ∈ op.clock := by
  obtain ⟨data, m, clk, rfl, rfl, -⟩ := h
  simp [Op.clock]

/-- A step leaves the route table as it is, or does one operation of it. -/
theorem routes_step (h : n.step c op = some (n', es)) :
    (n'.routes = n.routes ∧ ∀ x τ, ¬ Learns x τ op es) ∨
      ∃ rop o, Drives op es rop ∧ n.routes.step rop = some (n'.routes, o) := by
  have hidle (hr : n'.routes = n.routes) (hf : ∀ data m clk, op ≠ .frame data m clk) :
      n'.routes = n.routes ∧ ∀ x τ, ¬ Learns x τ op es :=
    ⟨hr, fun x τ ⟨data, m, clk, hop, _⟩ => hf data m clk hop⟩
  have hquiet {data : Bytes} {m : FrameMeta} {clk : HandleClock}
      (hnone : ∀ e ∈ es, e.learnt? = none) (x : NodeId) (τ : ℚ) :
      ¬ Learns x τ (.frame data m clk) es := by
    rintro ⟨_, _, _, _, _, e, he, hx⟩
    rw [hnone e he] at hx
    cases hx
  cases step_cases h with
  | @frame data m clk _ _ hh =>
    cases hh with
    | garbled e _ => exact Or.inl ⟨rfl, hquiet (by simp)⟩
    | packet pkt v f _ _ _ => exact Or.inl ⟨rfl, hquiet (by simp [Event.learnt?])⟩
    | rejected pkt v f e _ _ _ _ _ => exact Or.inl ⟨rfl, hquiet (by simp [Event.learnt?])⟩
    | verified pkt v f info w t _ _ _ _ _ hl =>
      refine Or.inr ⟨_, .learned w, @Drives.learn _ _ _ _ (n.copyOf pkt m (some info)) rfl, ?_⟩
      rw [RouteTable.step, hl]
      rfl
    | own pkt f _ _ _ => exact Or.inl ⟨rfl, hquiet (by simp)⟩
    | copy pkt v f w t _ _ _ _ _ hl =>
      refine Or.inr ⟨_, .learned w, @Drives.learn _ _ _ _ (n.copyOf pkt m none) rfl, ?_⟩
      rw [RouteTable.step, hl]
      rfl
  | relay done hr => exact Or.inl (hidle (edge_relayDue hr).routes_eq (by simp))
  | announce done ha => exact Or.inl (hidle (edge_announceStep ha).routes_eq (by simp))
  | tick t ht => exact Or.inr ⟨_, .done, .tick _, by rw [RouteTable.step, ht]; rfl⟩
  | flush mono => exact Or.inr ⟨_, .done, .flush _, rfl⟩
  | expire mono now nowCold => exact Or.inr ⟨_, _, .expire _, rfl⟩
  | nextHop a t ht => exact Or.inr ⟨_, .found a, .nextHop _, by rw [RouteTable.step, ht]; rfl⟩
  | warm t ht => exact Or.inr ⟨_, .done, .warm _, by rw [RouteTable.step, ht]; rfl⟩

/-- The table reads no other clock than the node. -/
theorem Drives.clock {rop : RouteOp} (h : Drives op es rop) : rop.clock.Sublist op.clock := by
  cases h with
  | learn _ => exact (List.Sublist.refl _).cons _ |>.cons _ |>.cons _
  | _ => exact List.Sublist.refl _

/-- The tick of a step takes no longer than `δ` to commit the settles that are due. -/
def Op.Prompt (δ : ℚ) (op : Op) : Prop := ∀ clk, op = .tick clk → clk.settled - clk.wall ≤ δ

theorem Drives.prompt {rop : RouteOp} (h : Drives op es rop) (hop : op.Prompt δ) :
    rop.Prompt δ := by
  rintro clk rfl
  cases h
  exact hop clk rfl

/-- The settings of the table stay as they are. -/
theorem routes_config_step (h : n.step c op = some (n', es)) : n.routes.SameConfig n'.routes := by
  rcases routes_step h with ⟨hsame, -⟩ | ⟨rop, o, -, hstep⟩
  · exact hsame ▸ .refl _
  · exact RouteTable.config_step hstep

theorem dated_step (h : n.routes.Dated δ T) (hδ : 0 ≤ δ) (hop : op.Prompt δ)
    (hclk : Ticks T T' op.clock) (hx : n.step c op = some (n', es)) : n'.routes.Dated δ T' := by
  rcases routes_step hx with ⟨hsame, -⟩ | ⟨rop, o, hdrives, hstep⟩
  · exact hsame ▸ h.mono hclk.le
  · exact h.step hδ (hdrives.prompt hop) (hclk.sublist hdrives.clock) hstep

theorem remembers_step (h : n.routes.Remembers x τ) (hclk : ∀ r ∈ op.clock, τ ≤ r)
    (hexpire : ∀ mono now nowCold, op = .expire mono now nowCold → nowCold - n.routes.ttl ≤ τ)
    (hx : n.step c op = some (n', es)) : n'.routes.Remembers x τ := by
  rcases routes_step hx with ⟨hsame, -⟩ | ⟨rop, o, hdrives, hstep⟩
  · rwa [hsame]
  · refine h.step (fun r hr => hclk r (hdrives.clock.subset hr)) (fun now nowCold hrop => ?_) hstep
    subst hrop
    cases hdrives
    exact hexpire _ now nowCold rfl

/-- The call of `learn` that a step makes leaves its record. -/
theorem remembers_learns (hcold : n.routes.cold.isSome) (hself : n.routes.ownId ≠ some x)
    (hx : n.step c op = some (n', es)) (hl : Learns x τ op es) : n'.routes.Remembers x τ := by
  rcases routes_step hx with ⟨-, hno⟩ | ⟨rop, o, hdrives, hstep⟩
  · exact absurd hl (hno x τ)
  · obtain ⟨data, m, clk, rfl, rfl, e, he, hex⟩ := hl
    cases hdrives with
    | learn hcp =>
      rw [List.mem_singleton] at he
      subst he
      obtain rfl := Option.some.inj (hex.symm.trans hcp)
      cases RouteTable.step_cases hstep with
      | learn hlearn => exact RouteTable.remembers_learn le_rfl hcold hlearn hself

/-! ### A turn that expires -/

theorem Relays.quiet {ps : List Packet} {es : List Event} (h : Relays ps es) :
    ∀ e ∈ es, e.learnt? = none := by
  induction h with
  | nil => simp
  | cons _ _ ih => simpa [Event.learnt?] using ih

theorem quiet_relayDue {now : ℚ} {sends : ℕ} {done : Bool}
    (h : n.relayDue now sends = some (n', es, done)) :
    n'.lastExpire = n.lastExpire ∧ ∀ e ∈ es, e.learnt? = none := by
  obtain ⟨hrelays, -, stats, rfl⟩ := relays_sendRelays h
  exact ⟨rfl, hrelays.quiet⟩

theorem quiet_announceStep {d : AnnounceDraw} {ok done : Bool}
    (h : n.announceStep d ok = some (n', es, done)) :
    n'.lastExpire = n.lastExpire ∧ ∀ e ∈ es, e.learnt? = none := by
  obtain ⟨rfl, -, b, hb, rfl⟩ := announceStep_cases h
  cases ok <;> simp [sendAnnounce, hb, Event.learnt?]

theorem lastExpire_receive {got : Option (Bytes × FrameMeta × HandleClock)}
    (h : n.receive c got = some (n', es)) : n'.lastExpire = n.lastExpire := by
  cases got with
  | none =>
    obtain ⟨rfl, -⟩ := Prod.mk.inj (Option.some.inj h)
    rfl
  | some g => cases @handle_cases _ _ _ g.1 g.2.1 g.2.2 _ h <;> rfl

/-- A turn that comes to its end a minute after the last `expire`: a frame, a tick and an
`expire` are what it does to the routes, and only the frame calls `learn`. -/
theorem poll_expires {i : Turn} (h : n.poll c i = some (n', es, true))
    (hdue : expireEvery ≤ i.now - n.lastExpire) :
    ∃ u e₀ t, n.receive c i.got = some (u, e₀) ∧ u.routes.tick i.tick = some t ∧
      n'.routes = (t.expire i.expireNow i.expireCold).2 ∧
      ∀ e ∈ es, e.learnt?.isSome → e ∈ e₀ := by
  -- what follows the sends, whose state has the routes and the date of the reception
  have hrest {u n₂ : Node} {e₀ e₁ e₃ : List Event} (h₀ : n.receive c i.got = some (u, e₀))
      (hroutes : n₂.routes = u.routes) (hlast : n₂.lastExpire = u.lastExpire)
      (hquiet : ∀ e ∈ e₁, e.learnt? = none) (h₃ : n₂.maintain i = some (n', e₃)) :
      ∃ w es t, n.receive c i.got = some (w, es) ∧ w.routes.tick i.tick = some t ∧
        n'.routes = (t.expire i.expireNow i.expireCold).2 ∧
        ∀ e ∈ e₀ ++ (e₁ ++ e₃), e.learnt?.isSome → e ∈ es := by
    obtain ⟨t, ht, hexp⟩ := Option.map_eq_some_iff.mp h₃
    dsimp only at hexp
    rw [hlast, lastExpire_receive h₀, if_pos hdue] at hexp
    obtain ⟨rfl, rfl⟩ := Prod.mk.inj hexp
    refine ⟨u, e₀, t, h₀, hroutes ▸ ht, rfl, fun e he hsome => ?_⟩
    simp only [List.mem_append, List.mem_map] at he
    rcases he with he | he | ⟨m, -, rfl⟩
    · exact he
    · rw [hquiet e he] at hsome
      cases hsome
    · cases hsome
  cases poll_cases h with
  | announced h₀ h₁ h₂ h₃ =>
    obtain ⟨hlast₁, hquiet₁⟩ := quiet_relayDue h₁
    obtain ⟨hlast₂, hquiet₂⟩ := quiet_announceStep h₂
    have hexpired := hrest h₀
      ((edge_announceStep h₂).routes_eq.trans (edge_relayDue h₁).routes_eq) (hlast₂.trans hlast₁)
      (fun e he => (List.mem_append.mp he).elim (hquiet₁ e) (hquiet₂ e)) h₃
    simpa only [List.append_assoc] using hexpired
  | quiet h₀ h₁ h₃ =>
    obtain ⟨hlast₁, hquiet₁⟩ := quiet_relayDue h₁
    exact hrest h₀ (edge_relayDue h₁).routes_eq hlast₁ hquiet₁ h₃

/-- The reception of a turn as steps of a run. -/
def Turn.frames (i : Turn) : List Op := i.got.toList.map fun g => .frame g.1 g.2.1 g.2.2

/-- The steps of a turn that comes to its end and expires. -/
def Turn.parts (i : Turn) : List Op :=
  i.frames ++ [.relay i.due i.sends, .announce i.announce i.announceOk, .tick i.tick,
    .expire i.now i.expireNow i.expireCold]

theorem exec_frames {i : Turn} {es : List Event} (h : n.receive c i.got = some (n', es)) :
    ∃ ess, exec (step c) n i.frames = some (n', ess) ∧
      ∀ x τ, (∃ op ∈ i.frames, Learns x τ op es) → ∃ e ∈ i.frames.zip ess, Learns x τ e.1 e.2 := by
  unfold Turn.frames
  cases hgot : i.got with
  | none =>
    rw [hgot] at h
    obtain ⟨rfl, -⟩ := Prod.mk.inj (Option.some.inj h)
    exact ⟨[], rfl, fun x τ ⟨op, hop, _⟩ => by cases hop⟩
  | some g =>
    rw [hgot] at h
    have hone : n.step c (.frame g.1 g.2.1 g.2.2) = some (n', es) := h
    refine ⟨[es], exec_cons_iff.mpr ⟨n', es, [], hone, rfl, rfl⟩, fun x τ ⟨op, hop, hl⟩ => ?_⟩
    obtain rfl : op = .frame g.1 g.2.1 g.2.2 := List.mem_singleton.mp hop
    exact ⟨(_, es), List.mem_singleton_self _, hl⟩

theorem Turn.prompt_frames (i : Turn) : ∀ op ∈ i.frames, op.Prompt δ := by
  intro op hop clk heq
  obtain ⟨g, -, rfl⟩ := List.mem_map.mp hop
  cases heq

/-- Of a turn, only the reception calls `learn`. -/
theorem Turn.learns_frames {i : Turn} {e₀ : List Event}
    (hquiet : ∀ e ∈ es, e.learnt?.isSome → e ∈ e₀) (hop : op ∈ i.parts)
    (hl : Learns x τ op es) : ∃ op ∈ i.frames, Learns x τ op e₀ := by
  obtain ⟨data, m, clk, rfl, hτ, e, he, hex⟩ := hl
  refine ⟨_, ?_, data, m, clk, rfl, hτ, e, hquiet e he (by rw [hex]; rfl), hex⟩
  simpa [Turn.parts] using hop

theorem dated_exec {ops rest : List Op} {ess : List (List Event)} (hδ : 0 ≤ δ)
    (h : n.routes.Dated δ T) (hprompt : ∀ op ∈ ops, op.Prompt δ)
    (hclock : Clocked Op.clock T (ops ++ rest))
    (hx : exec (step c) n ops = some (n', ess)) :
    ∃ T', n'.routes.Dated δ T' ∧ Clocked Op.clock T' rest :=
  exec_clocked (fun {T _ s _ _ _} (hs : s.routes.Dated δ T) hop hclk hone =>
    dated_step hs hδ hop hclk hone) h hprompt hclock hx

theorem routes_config_exec {ops : List Op} {ess : List (List Event)}
    (h : exec (step c) n ops = some (n', ess)) : n.routes.SameConfig n'.routes :=
  @exec_invariant _ _ _ _ (fun m => n.routes.SameConfig m.routes) (fun _ => True)
    (fun hm _ hone => hm.trans (routes_config_step hone)) _ _ _ _ (.refl _) (by simp) h

/-- A hearing of the run that no `expire` of it is too late for is remembered at its end. -/
theorem remembers_exec {ops rest : List Op} {ess : List (List Event)} {T₀ : ℚ}
    (h : exec (step c) n ops = some (n', ess)) (hcold : n.routes.cold.isSome)
    (hself : n.routes.ownId ≠ some x) (hclock : Clocked Op.clock T₀ (ops ++ rest))
    (hT : ∃ op ∈ rest, T ∈ op.clock) (hcut : T - n.routes.ttl ≤ τ)
    (hl : ∃ e ∈ ops.zip ess, Learns x τ e.1 e.2) : n'.routes.Remembers x τ := by
  obtain ⟨e, he, hl⟩ := hl
  obtain ⟨pre, post, hsplit⟩ := List.append_of_mem he
  have hops : ops = pre.map Prod.fst ++ e.1 :: post.map Prod.fst := by
    have hmap := congrArg (List.map Prod.fst) hsplit
    rwa [List.map_fst_zip (length_exec h).ge, List.map_append, List.map_cons] at hmap
  have hrec := records_zip h
  rw [hsplit, records_append_iff] at hrec
  obtain ⟨u, hpre, hrest⟩ := hrec
  obtain ⟨v, hone, hpost⟩ := records_cons_iff.mp hrest
  have hu := routes_config_exec hpre
  have hv := routes_config_step hone
  have hremembers : v.routes.Remembers x τ :=
    remembers_learns ((isSome_cold_exec hpre).trans hcold) (hu.ownId_eq ▸ hself) hone hl
  obtain ⟨op, hop, hTop⟩ := hT
  -- the clock puts what follows the call between its time and that of the last `expire`
  have hτ := hl.mem_clock
  have hlower : ∀ j ∈ post.map Prod.fst, ∀ r ∈ j.clock, τ ≤ r := by
    intro j hj r hr
    rw [hops, List.append_assoc, List.cons_append, ← List.singleton_append,
      ← List.append_assoc] at hclock
    exact hclock.le_of_append (List.mem_append_right _ (List.mem_singleton_self _))
      (List.mem_append_left _ hj) hτ hr
  have hupper : ∀ j ∈ post.map Prod.fst, ∀ r ∈ j.clock, r ≤ T := by
    intro j hj r hr
    refine hclock.le_of_append ?_ hop hr hTop
    rw [hops]
    exact List.mem_append_right _ (List.mem_cons_of_mem _ hj)
  let Inv := fun s : Node => s.routes.Remembers x τ ∧ n.routes.SameConfig s.routes
  have hinv : Inv n' := by
    refine exec_invariant (P := fun j => ∀ r ∈ j.clock, τ ≤ r ∧ r ≤ T)
      (fun {s j s' o} (hs : Inv s) hj hstep => ?_) ⟨hremembers, hu.trans hv⟩
      (fun j hj r hr => ⟨hlower j hj r hr, hupper j hj r hr⟩) hpost
    refine ⟨remembers_step hs.1 (fun r hr => (hj r hr).1) (fun mono now nowCold heq => ?_) hstep,
      hs.2.trans (routes_config_step hstep)⟩
    have hle := (hj nowCold (by rw [heq]; simp [Op.clock])).2
    rw [hs.2.ttl_eq]
    linarith
  exact hinv.1

end Node

open Node in
/-- Any run of a node over a database, on one clock, in which no tick takes longer than the
TTL less the flush interval to commit its settles, and then a turn that ticks and expires
at time `T`: whatever `get` returns was heard within the TTL, `next_hop` answers from such
a record, and every node other than the own one that `learn` was called for within the
TTL has a route. A look-up of it can fail only over a time that four octets cannot hold. -/
theorem expiry_exact {c : Crypto} {n₀ n₁ n₂ : Node} {own : Option NodeId} {ttl mono₀ T₀ : ℚ}
    {rows : OrderedDict NodeId Row} {maxHot : ℕ}
    (hroutes : n₀.routes = .new own ttl (some (ColdStore.new rows mono₀)) maxHot)
    (httl : flushSeconds ≤ ttl) (hmono : mono₀ ≤ T₀) {ops : List Op} {ess : List (List Event)}
    (hx : exec (step c) n₀ ops = some (n₁, ess))
    (hprompt : ∀ op ∈ ops, op.Prompt (ttl - flushSeconds)) {i : Turn} {es : List Event}
    (hpoll : n₁.poll c i = some (n₂, es, true)) (hdue : expireEvery ≤ i.now - n₁.lastExpire)
    {T : ℚ} (htick : i.tick = ⟨T, T, T, T⟩) (hexpire : i.expireNow = T ∧ i.expireCold = T)
    (hclock : Clocked Op.clock T₀ (ops ++ i.parts)) :
    (∀ x full r, n₂.routes.get x full = some r → T - ttl ≤ r.lastSeen) ∧
    (∀ x mac t', n₂.routes.nextHop x = some (some mac, t') →
      ∃ r, n₂.routes.get x false = some r ∧ r.nextHop = mac) ∧
    ∀ x τ, own ≠ some x → T - ttl ≤ τ →
      ((∃ e ∈ ops.zip ess, Learns x τ e.1 e.2) ∨ ∃ op ∈ i.parts, Learns x τ op es) →
      (∀ a t', n₂.routes.nextHop x = some (a, t') → ∃ mac, a = some mac) ∧
      (n₂.routes.nextHop x = none → ∃ r, n₂.routes.recorded x = some r ∧
        (pyInt r.lastSeen < 0 ∨ 2 ^ 32 ≤ pyInt r.lastSeen)) := by
  obtain ⟨u, e₀, t, hrecv, ht, hn₂, hquiet⟩ := poll_expires hpoll hdue
  obtain ⟨ess₀, hframes, hlearns⟩ := exec_frames hrecv
  rw [htick] at ht
  rw [hexpire.1, hexpire.2] at hn₂
  -- the run and the reception of the turn, up to its tick
  have hrun : exec (step c) n₀ (ops ++ i.frames) = some (u, ess ++ ess₀) :=
    exec_append_iff.mpr ⟨n₁, ess, ess₀, hx, hframes, rfl⟩
  set rest : List Op := [.relay i.due i.sends, .announce i.announce i.announceOk, .tick i.tick,
    .expire i.now i.expireNow i.expireCold] with hrest
  have hT : ∃ op ∈ rest, T ∈ op.clock :=
    ⟨.tick i.tick, by simp [hrest], by rw [htick]; simp [Op.clock]⟩
  have hclock' : Clocked Op.clock T₀ ((ops ++ i.frames) ++ rest) := by
    rw [List.append_assoc]
    exact hclock
  have hconf := routes_config_exec hrun
  have hδ : 0 ≤ ttl - flushSeconds := by linarith
  have hfresh : n₀.routes.Dated (ttl - flushSeconds) T₀ :=
    hroutes ▸ fun s hs => Option.some.inj hs ▸ ColdStore.dated_new hmono
  obtain ⟨T₁, hdated, hclock₁⟩ := dated_exec hδ hfresh
    (fun op hop => (List.mem_append.mp hop).elim (hprompt op) (i.prompt_frames op)) hclock' hrun
  have hT₁ : T₁ ≤ T := by
    obtain ⟨op, hop, hr⟩ := hT
    exact hclock₁.le hop hr
  have httl' : u.routes.ttl = ttl := hconf.ttl_eq.trans (by rw [hroutes]; rfl)
  have httl₂ : t.ttl = ttl := by
    obtain ⟨w, hw, rfl⟩ := Option.map_eq_some_iff.mp ht
    exact (RouteTable.config_settle hw).ttl_eq.trans httl'
  refine ⟨fun x full r hget => ?_, fun x mac t' hx => RouteTable.get_of_nextHop hx,
    fun x τ hown hcut hl => ?_⟩
  · rw [hn₂] at hget
    rw [← httl']
    exact hdated.expired (by rw [httl']; linarith) hδ hT₁ ht hget
  · have hl' : ∃ e ∈ (ops ++ i.frames).zip (ess ++ ess₀), Learns x τ e.1 e.2 := by
      rw [List.zip_append (length_exec hx).symm]
      rcases hl with ⟨e, he, hl⟩ | ⟨op, hop, hl⟩
      · exact ⟨e, List.mem_append_left _ he, hl⟩
      · obtain ⟨e, he, hl⟩ := hlearns x τ (Turn.learns_frames hquiet hop hl)
        exact ⟨e, List.mem_append_right _ he, hl⟩
    have hτ : τ ≤ T := by
      obtain ⟨e, he, hl⟩ := hl'
      obtain ⟨op, hop, hr⟩ := hT
      exact hclock'.le_of_append (List.of_mem_zip he).1 hop hl.mem_clock hr
    have hremembers : u.routes.Remembers x τ :=
      remembers_exec hrun (by rw [hroutes]; rfl) (by rw [hroutes]; exact hown) hclock' hT
        (by rw [hroutes]; exact hcut) hl'
    have hkept : n₂.routes.Remembers x τ := by
      rw [hn₂]
      exact (hremembers.tick hτ ht).expire (by rw [httl₂]; exact hcut)
    exact ⟨fun a t' ha => hkept.nextHop_ne_none ha, fun hnone => hkept.nextHop_eq_none hnone⟩

/-- A silent turn with every reading at `T`. -/
def expiringTurn (T : ℚ) : Node.Turn where
  got := none
  now := T
  due := T
  sends := 1
  announce := ⟨⟨List.replicate randomLen 0, length_zeros⟩, packetIdOf 5, T, T⟩
  announceOk := true
  tick := ⟨T, T, T, T⟩
  expireNow := T
  expireCold := T

/-- One announce, heard at time 100. -/
def announceRun : List Node.Op :=
  [.frame (sampleAnnounce 0).frame ⟨macOf 1, some (-40)⟩ (HandleClock.const 100)]

open Node in
theorem expiry_exact_announceRun : ∃ n₁ n₂ ess es,
    exec (step sampleCrypto) sampleStart announceRun = some (n₁, ess) ∧
    n₁.poll sampleCrypto (expiringTurn 200) = some (n₂, es, true) ∧
    (∀ x full r, n₂.routes.get x full = some r → 200 - defaultTtl ≤ r.lastSeen) ∧
    ∀ a t', n₂.routes.nextHop sampleNode = some (a, t') → ∃ mac, a = some mac := by
  have hrun : (exec (step sampleCrypto) sampleStart announceRun).bind (fun r =>
      (r.1.poll sampleCrypto (expiringTurn 200)).map fun p => decide (p.2.2 = true ∧
        expireEvery ≤ (expiringTurn 200).now - r.1.lastExpire ∧
        r.2.map (fun es => es.map Event.learnt?) = [[some sampleNode]])) = some true := by
    decide +kernel
  obtain ⟨⟨n₁, ess⟩, hx, hrun⟩ := Option.bind_eq_some_iff.mp hrun
  obtain ⟨⟨n₂, es, ok⟩, hpoll, hto⟩ := Option.map_eq_some_iff.mp hrun
  obtain ⟨rfl, hdue, hlearnt⟩ := of_decide_eq_true hto
  have hclock : Clocked Op.clock 0 (announceRun ++ (expiringTurn 200).parts) := by
    unfold Clocked
    decide +kernel
  have hprompt : ∀ op ∈ announceRun, op.Prompt (defaultTtl - flushSeconds) := by
    intro op hop clk heq
    obtain rfl := List.mem_singleton.mp hop
    cases heq
  obtain ⟨hlive, -, hroute⟩ := expiry_exact rfl (by decide +kernel) le_rfl hx hprompt hpoll hdue
    rfl ⟨rfl, rfl⟩ hclock
  refine ⟨n₁, n₂, ess, es, hx, hpoll, hlive, (hroute sampleNode 100 ?_ ?_ (Or.inl ?_)).1⟩
  · decide +kernel
  · decide +kernel
  · obtain ⟨es₁, rfl, hes₁⟩ := List.map_eq_singleton_iff.mp hlearnt
    obtain ⟨e, rfl, he⟩ := List.map_eq_singleton_iff.mp hes₁
    exact ⟨_, List.mem_singleton_self _, _, _, _, rfl, rfl, e, List.mem_singleton_self _, he⟩

/-! ### A settle after a forced flush

Two announces wait to be settled while those of a crowd fill the buffer. -/

/-- The `k`-th node of a crowd. -/
def crowdId (k : ℕ) : NodeId := ⟨beBytes idLen k, length_beBytes idLen k⟩

theorem crowdId_ne {j k : ℕ} (hj : j < k) (hk : k < flushEntries + 3) :
    crowdId k ≠ crowdId j := by
  intro h
  have hfits : flushEntries + 3 ≤ 256 ^ idLen := by decide
  rw [crowdId, crowdId, Subtype.mk.injEq] at h
  have hnat := congrArg beNat h
  rw [beNat_beBytes idLen k (by omega), beNat_beBytes idLen j (by omega)] at hnat
  omega

/-- Its announce, after hops that leave `hopLimit`. The key begins with the id. -/
def crowdAnnounce (k : ℕ) (hopLimit : ℤ) (packetId : UInt8) : Packet :=
  ⟨crowdId k, broadcast, typeAnnounce, flagNoAck, hopLimit, packetIdOf packetId,
    (crowdId k).val ++ List.replicate (announceMin - idLen) 0, version⟩

/-- Primitives under which the announces of the crowd are genuine. -/
def crowdCrypto : Crypto := ⟨id, fun _ _ _ => true⟩

def crowdFrame (k : ℕ) (hopLimit : ℤ) (packetId : UInt8) (t : ℚ) : Node.Op :=
  .frame (crowdAnnounce k hopLimit packetId).frame
    (Raising.frameMeta ⟨{}, [], [], macOf 1, [], []⟩) (HandleClock.const t)

/-- The announces of `k` of the crowd, one after the other. -/
def crowdFrames (k : ℕ) : List Node.Op :=
  (List.range k).map fun j => crowdFrame (j + 3) 0 1 (459 / 4)

/-- The tick whose settles take a tenth of a second. -/
def crowdTick : Node.Op := .tick ⟨115, 1151 / 10, 1151 / 10, 1151 / 10⟩

def crowdNode : Node :=
  { Node.sampleStart with
    routes := .new (some sampleIdentity.nodeId) flushSeconds
      (some (ColdStore.new OrderedDict.empty 0)) maxHotRoutes }

def crowdOpening : List Node.Op :=
  [.announce ⟨⟨List.replicate randomLen 0, length_zeros⟩, packetIdOf 0, 1, 1⟩ true,
    crowdFrame 1 1 1 110, crowdFrame 2 1 1 110, .relay 111 2,
    crowdFrame 1 0 2 114, crowdFrame 2 0 2 114, .tick ⟨229 / 2, 229 / 2, 229 / 2, 229 / 2⟩]

def crowdRun : List Node.Op :=
  crowdOpening ++ (crowdFrames (flushEntries - 1) ++ [crowdTick])

/-- What waits of it. -/
def crowdSettle : Settle := ⟨115, macOf 1, 3, noRssi⟩

/-- Two of the crowd wait to be settled, and `k` more are in the buffer. -/
structure RouteTable.Crowded (k : ℕ) (t : RouteTable) : Prop where
  ownId_eq : t.ownId = some (crowdId 0)
  pending_eq : t.pending.entries = [(crowdId 1, crowdSettle), (crowdId 2, crowdSettle)]
  hot : ∀ x ∈ t.hot.keys, ∃ j < k + 3, x = crowdId j
  cold : ∃ s, t.cold = some s ∧ s.lastFlush = 229 / 2 ∧ s.buf.size = k ∧
    ∀ x ∈ s.buf.keys, ∃ j < k, x = crowdId (j + 3)

namespace RouteTable
variable {t t' : RouteTable} {k : ℕ}

theorem Crowded.learn (h : t.Crowded k) (hk : k + 1 < flushEntries) {c : Copy}
    (hc : c.nodeId = crowdId (k + 3)) {now mono : ℚ} {v : LearnVerdict}
    (hl : t.learn c now mono = some (v, t')) : t'.Crowded (k + 1) := by
  obtain ⟨s, hs, hflush, hsize, hbuf⟩ := h.cold
  have hne {j : ℕ} (hj : j < k + 3) : crowdId (k + 3) ≠ crowdId j := crowdId_ne hj (by omega)
  have hhot : t.hot.get? c.nodeId = none := by
    rw [OrderedDict.get?_eq_none_iff]
    intro hmem
    obtain ⟨j, hj, heq⟩ := h.hot _ hmem
    exact hne hj (hc.symm.trans heq)
  have hwait : c.nodeId ∉ t.pending.keys := by
    intro hmem
    have hmem' : c.nodeId ∈ t.pending.entries.map Prod.fst := hmem
    simp only [h.pending_eq, List.map_cons, List.map_nil, List.mem_cons, List.not_mem_nil,
      or_false] at hmem'
    rcases hmem' with heq | heq
    · exact hne (by omega) (hc.symm.trans heq)
    · exact hne (by omega) (hc.symm.trans heq)
  have hnew : c.nodeId ∉ s.buf.keys := by
    intro hmem
    obtain ⟨j, hj, heq⟩ := hbuf _ hmem
    exact hne (by omega) (hc.symm.trans heq)
  have hsettled : t.dropPending c.nodeId = t := by
    rw [dropPending, OrderedDict.erase_eq_self_iff.mpr hwait]
  cases learn_cases hl with
  | self hself =>
    have heq : c.nodeId = crowdId 0 := Option.some.inj (hself.symm.trans h.ownId_eq)
    exact absurd (hc.symm.trans heq) (hne (by omega))
  | committed v t' _ _ hcommit =>
    rw [hsettled] at hcommit
    obtain ⟨e, -, rfl⟩ := commit_eq_some_iff.mp hcommit
    refine ⟨h.ownId_eq, h.pending_eq, fun x hx => ?_, ?_⟩
    · obtain ⟨e', he'⟩ := OrderedDict.mem_keys_iff.mp hx
      rcases get?_of_get?_place he' with ⟨rfl, -⟩ | ⟨-, hold⟩
      · exact ⟨k + 3, by omega, hc⟩
      · obtain ⟨j, hj, heq⟩ := h.hot x (OrderedDict.mem_keys_iff.mpr ⟨e', hold⟩)
        exact ⟨j, by omega, heq⟩
    · have hroom := OrderedDict.size_insert_of_not_mem (s.merge c.nodeId (c.hearing now)) hnew
      refine ⟨s.buffer c.nodeId (c.hearing now) mono, ?_, ?_⟩
      · show t.cold.map (fun s => s.buffer c.nodeId (c.hearing now) mono) = _
        rw [hs]
        rfl
      · rw [ColdStore.buffer_eq, if_neg (by dsimp only; omega)]
        refine ⟨hflush, by rw [hroom, hsize], fun x hx => ?_⟩
        rw [OrderedDict.keys_insert_of_not_mem _ hnew, List.mem_append, List.mem_singleton] at hx
        rcases hx with hx | rfl
        · obtain ⟨j, hj, heq⟩ := hbuf x hx
          exact ⟨j, by omega, heq⟩
        · exact ⟨k, by omega, hc⟩
  | keptEqual old _ hold _ _ _ _ => cases hhot.symm.trans hold
  | settling old _ hold _ _ => cases hhot.symm.trans hold
  | keptWorse old _ hold _ _ => cases hhot.symm.trans hold

theorem settleOne_eq {s : ColdStore} {now mono : ℚ} {e : NodeId × Settle}
    (hs : t.cold = some s) (h : settleOne now mono t e = some t') :
    t'.pending = t.pending.erase e.1 ∧
      t'.cold = some (s.buffer e.1 ((e.2.copy e.1).hearing now) mono) := by
  obtain ⟨p, -, rfl⟩ := commit_eq_some_iff.mp h
  refine ⟨rfl, ?_⟩
  show t.cold.map (fun s => s.buffer e.1 ((e.2.copy e.1).hearing now) mono) = _
  rw [hs]
  rfl

theorem settleOne_crowd_isSome (t : RouteTable) (x : NodeId) (mono : ℚ) :
    (settleOne 115 mono t (x, crowdSettle)).isSome :=
  commit_isSome ⟨by show 3 < 2 ^ 16; decide,
    fun r hr => by obtain rfl := Option.some.inj hr; show -128 ≤ noRssi; decide,
    fun r hr => by obtain rfl := Option.some.inj hr; show noRssi ≤ 127; decide⟩
    (by norm_num) (by norm_num) mono

/-- Settling the first of the two fills the buffer, so the second is left in it. -/
theorem Crowded.tick (h : t.Crowded (flushEntries - 1)) :
    ∃ t' s x, t.tick ⟨115, 1151 / 10, 1151 / 10, 1151 / 10⟩ = some t' ∧
      t'.pending = OrderedDict.empty ∧ t'.cold = some s ∧ s.lastFlush = 1151 / 10 ∧
      s.buf.get? (crowdId 2) = some x ∧ x.lastSeen = 115 := by
  obtain ⟨s, hs, -, hsize, hbuf⟩ := h.cold
  obtain ⟨u, hu⟩ := Option.isSome_iff_exists.mp
    (settleOne_crowd_isSome t (crowdId 1) (1151 / 10))
  obtain ⟨w, hw⟩ := Option.isSome_iff_exists.mp
    (settleOne_crowd_isSome u (crowdId 2) (1151 / 10))
  have hsettle : t.settle 115 (1151 / 10) = some w := by
    have hdue : t.pending.entries.filter (fun e => decide (e.2.commitAt ≤ 115)) =
        t.pending.entries := by
      rw [h.pending_eq]
      rfl
    rw [settle, hdue, h.pending_eq, List.foldlM_cons, hu, Option.bind_eq_bind, Option.bind_some,
      List.foldlM_cons, hw]
    rfl
  obtain ⟨hpu, hcu⟩ := settleOne_eq hs hu
  obtain ⟨hpw, hcw⟩ := settleOne_eq hcu hw
  have hnew : crowdId 1 ∉ s.buf.keys := by
    intro hmem
    obtain ⟨j, hj, heq⟩ := hbuf _ hmem
    exact crowdId_ne (show 1 < j + 3 by omega) (by omega) heq.symm
  set x : Hearing := (crowdSettle.copy (crowdId 1)).hearing 115
  set y : Hearing := (crowdSettle.copy (crowdId 2)).hearing 115
  have hfull := OrderedDict.size_insert_of_not_mem (s.merge (crowdId 1) x) hnew
  rw [ColdStore.buffer_eq s, if_pos (by dsimp only; rw [hfull, hsize]; decide)] at hcw
  set f := ColdStore.flush { s with buf := s.buf.insert (crowdId 1) (s.merge (crowdId 1) x) }
    (1151 / 10)
  have hempty : f.buf = OrderedDict.empty := ColdStore.buf_flush _ _
  have hflush : f.lastFlush = 1151 / 10 := ColdStore.lastFlush_flush _ _
  have hone : f.buffer (crowdId 2) y (1151 / 10) =
      { f with buf := OrderedDict.empty.insert (crowdId 2) y } := by
    rw [ColdStore.buffer_eq, ColdStore.merge, hempty]
    rfl
  have hkept : ({ f with buf := OrderedDict.empty.insert (crowdId 2) y } : ColdStore).maybeFlush
      (1151 / 10) (1151 / 10) = { f with buf := OrderedDict.empty.insert (crowdId 2) y } :=
    ColdStore.maybeFlush_of_lt (by dsimp only; rw [hflush, flushSeconds]; norm_num) _
  refine ⟨_, { f with buf := OrderedDict.empty.insert (crowdId 2) y }, y,
    congrArg (Option.map _) hsettle, ?_, ?_, hflush, ?_, rfl⟩
  · show w.pending = _
    rw [hpw, hpu]
    apply OrderedDict.ext
    show (t.pending.entries.filter _).filter _ = []
    rw [h.pending_eq]
    decide
  · show w.cold.map _ = _
    rw [hcw, hone]
    exact congrArg some hkept
  · rw [OrderedDict.get?_insert, if_pos rfl]

end RouteTable

namespace Node
variable {n n' : Node} {k : ℕ}

theorem fromBytes_crowdAnnounce (k : ℕ) :
    Packet.fromBytes (crowdAnnounce k 0 1).frame = .ok (crowdAnnounce k 0 1) := by
  obtain ⟨b, hb⟩ := Option.isSome_iff_exists.mp
    ((Packet.toBytes_isSome_iff (crowdAnnounce k 0 1)).mpr (by
      simp [crowdAnnounce, version, typeAnnounce, flagNoAck, maxHopLimit]))
  rw [Packet.frame, hb]
  exact Packet.fromBytes_toBytes rfl hb

theorem parseAnnounce_crowd (k : ℕ) : ∃ info,
    parseAnnounce crowdCrypto (crowdId k) (crowdAnnounce k 0 1).payload = .ok info := by
  have hlen : (crowdId k).val.length = idLen := (crowdId k).property
  refine ⟨_, parseAnnounce_eq_ok_iff.mpr ⟨?_, ?_, rfl, rfl⟩⟩
  · simp only [crowdAnnounce, List.length_append, List.length_replicate, hlen]
    decide
  · simp only [nodeIdFromKey, crowdCrypto, crowdAnnounce, id, List.take_take]
    exact List.take_left' hlen

/-- A node on quiet air with a table of the crowd. -/
structure Crowded (k : ℕ) (n : Node) : Prop where
  routes : n.routes.Crowded k
  ownId_eq : n.flooder.ownId = some (crowdId 0)
  idle : n.flooder.pending = OrderedDict.empty
  hopLimit_eq : n.hopLimit = defaultHopLimit
  nextAnnounce_eq : n.nextAnnounce = 21601
  lastExpire_eq : n.lastExpire = 0

/-- One more of the crowd, whose announce has no hops left. -/
theorem Crowded.frame (h : n.Crowded k) (hk : k + 1 < flushEntries) :
    ∃ n' es, n.step crowdCrypto (crowdFrame (k + 3) 0 1 (459 / 4)) = some (n', es) ∧
      n'.Crowded (k + 1) := by
  have hrange : 0 ≤ n.hopLimit ∧ n.hopLimit ≤ maxHopLimit := by
    rw [h.hopLimit_eq]
    decide
  have hpos : 0 ≤ (HandleClock.const (459 / 4)).now := by decide +kernel
  have hnow : (HandleClock.const (459 / 4)).now < 2 ^ 32 := by decide +kernel
  obtain ⟨⟨n', es⟩, hx⟩ := Option.isSome_iff_exists.mp (handle_isSome crowdCrypto
    hrange.1 hrange.2 (crowdAnnounce (k + 3) 0 1).frame ⟨{}, [], [], macOf 1, [], []⟩ hpos
    hnow)
  refine ⟨n', es, hx, ?_⟩
  have hp := fromBytes_crowdAnnounce (k + 3)
  have hforeign : n.flooder.ownId ≠ some (crowdId (k + 3)) := by
    rw [h.ownId_eq]
    exact fun heq => crowdId_ne (Nat.succ_pos _) (by omega) (Option.some.inj heq).symm
  -- with nothing pending and no hops left, nothing gets to be pending
  have hquiet {f : Flooder} {v : Verdict} {clk : ReceiveClock} {draw : ℚ} {rssi : Option ℤ}
      (hr : n.flooder.onReceive (crowdAnnounce (k + 3) 0 1) rssi clk draw = (v, f)) :
      f.ownId = some (crowdId 0) ∧ f.pending = OrderedDict.empty := by
    refine ⟨(Flooder.ownId_onReceive hr).trans h.ownId_eq, ?_⟩
    cases Flooder.onReceive_cases hr with
    | own hown => exact absurd hown hforeign
    | cancelled q _ hq _ => rw [h.idle] at hq; cases hq
    | counted q _ hq _ => rw [h.idle] at hq; cases hq
    | duplicate _ _ _ => exact h.idle
    | noHops _ _ _ _ => exact h.idle
    | scheduled relay _ _ _ hrelay => cases hrelay
  cases handle_cases hx with
  | garbled e he => cases hp.symm.trans he
  | packet pkt v f he hne _ =>
    obtain rfl := Except.ok.inj (hp.symm.trans he)
    exact absurd rfl hne
  | rejected pkt v f e he _ _ _ hrej =>
    obtain rfl := Except.ok.inj (hp.symm.trans he)
    obtain ⟨info, hinfo⟩ := parseAnnounce_crowd (k + 3)
    cases hinfo.symm.trans hrej
  | verified pkt v f info w t he _ hr _ _ hl =>
    obtain rfl := Except.ok.inj (hp.symm.trans he)
    obtain ⟨hown, hidle⟩ := hquiet hr
    refine ⟨h.routes.learn hk ?_ hl, hown, hidle, h.hopLimit_eq, h.nextAnnounce_eq,
      h.lastExpire_eq⟩
    rfl
  | own pkt f he _ hr =>
    obtain rfl := Except.ok.inj (hp.symm.trans he)
    exact absurd ((Flooder.own_iff hr).mp rfl) hforeign
  | copy pkt v f w t he _ hr _ _ hl =>
    obtain rfl := Except.ok.inj (hp.symm.trans he)
    obtain ⟨hown, hidle⟩ := hquiet hr
    refine ⟨h.routes.learn hk ?_ hl, hown, hidle, h.hopLimit_eq, h.nextAnnounce_eq,
      h.lastExpire_eq⟩
    rfl

theorem Crowded.frames (h : n.Crowded 0) (hk : k < flushEntries) :
    ∃ n' ess, exec (step crowdCrypto) n (crowdFrames k) = some (n', ess) ∧ n'.Crowded k := by
  induction k with
  | zero => exact ⟨n, [], rfl, h⟩
  | succ k ih =>
    obtain ⟨u, ess, hu, hcrowd⟩ := ih (by omega)
    obtain ⟨n', es, hone, hcrowd'⟩ := hcrowd.frame hk
    refine ⟨n', ess ++ [es], ?_, hcrowd'⟩
    rw [crowdFrames, List.range_succ, List.map_append]
    exact exec_append_iff.mpr
      ⟨u, ess, [es], hu, exec_cons_iff.mpr ⟨n', es, [], hone, rfl, rfl⟩, rfl⟩

theorem crowded_opening : ∃ n ess,
    exec (step crowdCrypto) crowdNode crowdOpening = some (n, ess) ∧ n.Crowded 0 := by
  have hrun : (exec (step crowdCrypto) crowdNode crowdOpening).bind (fun r =>
      r.1.routes.cold.map fun s => decide (
        r.1.routes.ownId = some (crowdId 0) ∧ r.1.routes.pending.entries =
          [(crowdId 1, crowdSettle), (crowdId 2, crowdSettle)] ∧
        r.1.routes.hot.keys = [crowdId 1, crowdId 2] ∧ s.lastFlush = 229 / 2 ∧
        s.buf = OrderedDict.empty ∧ r.1.flooder.ownId = some (crowdId 0) ∧
        r.1.flooder.pending = OrderedDict.empty ∧ r.1.hopLimit = defaultHopLimit ∧
        r.1.nextAnnounce = 21601 ∧ r.1.lastExpire = 0)) = some true := by
    decide +kernel
  obtain ⟨⟨n, ess⟩, hx, hrun⟩ := Option.bind_eq_some_iff.mp hrun
  obtain ⟨s, hs, hto⟩ := Option.map_eq_some_iff.mp hrun
  obtain ⟨hown, hpending, hhot, hflush, hbuf, hid, hidle, hlimit, hann, hlast⟩ :=
    of_decide_eq_true hto
  refine ⟨n, ess, hx, ⟨hown, hpending, fun x hmem => ?_, s, hs, hflush, by rw [hbuf]; rfl, ?_⟩,
    hid, hidle, hlimit, hann, hlast⟩
  · rw [hhot] at hmem
    simp only [List.mem_cons, List.not_mem_nil, or_false] at hmem
    rcases hmem with rfl | rfl
    · exact ⟨1, by omega, rfl⟩
    · exact ⟨2, by omega, rfl⟩
  · intro x hmem
    rw [hbuf] at hmem
    cases hmem

theorem clock_crowdFrames {k : ℕ} {r : ℚ} (h : r ∈ (crowdFrames k).flatMap Op.clock) :
    r = 459 / 4 := by
  obtain ⟨op, hop, hr⟩ := List.mem_flatMap.mp h
  obtain ⟨j, -, rfl⟩ := List.mem_map.mp hop
  simpa [crowdFrame, Op.clock, HandleClock.const] using hr

theorem clocked_crowd (k : ℕ) :
    Clocked Op.clock 0 (crowdOpening ++
      (crowdFrames k ++ crowdTick :: (expiringTurn (2401 / 20)).parts)) := by
  have hends : (0 :: (crowdOpening.flatMap Op.clock ++ 459 / 4 ::
      (crowdTick :: (expiringTurn (2401 / 20)).parts).flatMap Op.clock)).Pairwise (· ≤ ·) := by
    decide +kernel
  rw [← List.cons_append, List.pairwise_append] at hends
  obtain ⟨hopening, htail, hcross⟩ := hends
  obtain ⟨hlate, htail⟩ := List.pairwise_cons.mp htail
  rw [Clocked, List.flatMap_append, List.flatMap_append, ← List.cons_append, List.pairwise_append,
    List.pairwise_append]
  refine ⟨hopening, ⟨?_, htail, fun r hr q hq => ?_⟩, fun r hr q hq => ?_⟩
  · exact List.pairwise_of_forall_mem_list fun r hr q hq =>
      (clock_crowdFrames hr).trans_le (clock_crowdFrames hq).ge
  · rw [clock_crowdFrames hr]
    exact hlate q hq
  · rcases List.mem_append.mp hq with hq | hq
    · rw [clock_crowdFrames hq]
      exact hcross r hr _ List.mem_cons_self
    · exact hcross r hr q (List.mem_cons_of_mem _ hq)

/-- A turn on quiet air that does nothing but tick and expire. -/
theorem poll_idle {c : Crypto} {i : Turn} {t : RouteTable} (hgot : i.got = none)
    (hidle : n.flooder.pending = OrderedDict.empty) (hann : i.now < n.nextAnnounce)
    (htick : n.routes.tick i.tick = some t) (hdue : expireEvery ≤ i.now - n.lastExpire) :
    ∃ n' es, n.poll c i = some (n', es, true) ∧
      n'.routes = (t.expire i.expireNow i.expireCold).2 := by
  have hrecv : n.receive c i.got = some (n, []) := by rw [hgot]; rfl
  have hrelay : n.relayDue i.due i.sends =
      some ({ n with flooder := (n.flooder.due i.due).2 }, [], true) := by
    have hnone : (n.flooder.due i.due).1 = [] := by
      simp [Flooder.due, hidle, OrderedDict.empty]
    rw [relayDue, hnone]
    rfl
  rw [poll, hrecv, Option.bind_some, hrelay]
  simp only [Option.bind_some, maintain, htick, Option.map_some, Bool.true_eq_false, if_false,
    if_neg (not_le.mpr hann), if_pos (show i.now - n.lastExpire ≥ expireEvery from hdue)]
  exact ⟨_, _, rfl, rfl⟩

end Node

open Node in
/-- A tick whose settles take a tenth of a second, with a flush in their middle. Under a TTL
of five seconds, a turn that expires still finds a hearing that is older. -/
theorem stalled_settle_outlives_ttl : ∃ n₁ n₂ ess es r,
    exec (step crowdCrypto) crowdNode crowdRun = some (n₁, ess) ∧
    n₁.poll crowdCrypto (expiringTurn (2401 / 20)) = some (n₂, es, true) ∧
    expireEvery ≤ (expiringTurn (2401 / 20)).now - n₁.lastExpire ∧
    Clocked Op.clock 0 (crowdRun ++ (expiringTurn (2401 / 20)).parts) ∧
    n₂.routes.get (crowdId 2) true = some r ∧ r.lastSeen < 2401 / 20 - flushSeconds := by
  obtain ⟨u, ess₀, hopening, hu⟩ := crowded_opening
  obtain ⟨v, ess₁, hframes, hv⟩ := hu.frames (k := flushEntries - 1) (by decide)
  obtain ⟨t, s, x, ht, hpending, hcold, hflush, hx, hseen⟩ := hv.routes.tick
  have hone : v.step crowdCrypto crowdTick = some ({ v with routes := t }, []) := by
    rw [crowdTick, step, ht]
    rfl
  have hsettle : t.settle (2401 / 20) (2401 / 20) = some t := by
    rw [RouteTable.settle, hpending]
    rfl
  have hkept : s.maybeFlush (2401 / 20) (2401 / 20) = s :=
    ColdStore.maybeFlush_of_lt (by rw [hflush, flushSeconds]; norm_num) _
  have hstill : t.tick (expiringTurn (2401 / 20)).tick = some t := by
    rw [RouteTable.tick]
    show (t.settle (2401 / 20) (2401 / 20)).map (fun t' => { t' with
      cold := t'.cold.map fun s => s.maybeFlush (2401 / 20) (2401 / 20) }) = some t
    rw [hsettle, Option.map_some, hcold, Option.map_some, hkept, ← hcold]
  have hann : (expiringTurn (2401 / 20)).now < v.nextAnnounce := by
    rw [hv.nextAnnounce_eq]
    decide +kernel
  have hdue : expireEvery ≤ (expiringTurn (2401 / 20)).now - v.lastExpire := by
    rw [hv.lastExpire_eq]
    decide +kernel
  obtain ⟨n₂, es, hpoll, hroutes⟩ := poll_idle (c := crowdCrypto) (n := { v with routes := t })
    rfl hv.idle hann hstill hdue
  have hflood : exec (step crowdCrypto) u (crowdFrames (flushEntries - 1) ++ [crowdTick]) =
      some ({ v with routes := t }, ess₁ ++ [[]]) :=
    exec_append_iff.mpr ⟨v, ess₁, [[]], hframes, exec_cons_iff.mpr ⟨_, [], [], hone, rfl, rfl⟩, rfl⟩
  have hrun : exec (step crowdCrypto) crowdNode crowdRun =
      some ({ v with routes := t }, ess₀ ++ (ess₁ ++ [[]])) :=
    exec_append_iff.mpr ⟨u, ess₀, ess₁ ++ [[]], hopening, hflood, rfl⟩
  refine ⟨_, n₂, _, es, ColdStore.ofHearing (crowdId 2) x, hrun, hpoll, hdue, ?_, ?_, ?_⟩
  · rw [crowdRun, List.append_assoc, List.append_assoc, List.singleton_append]
    exact clocked_crowd _
  · rw [hroutes]
    simp [RouteTable.get, RouteTable.expire, hcold, ColdStore.get, ColdStore.expire, hx]
  · show x.lastSeen < _
    rw [hseen, flushSeconds]
    norm_num

end Beachedmesh
