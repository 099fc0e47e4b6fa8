import Beachedmesh.Control

/-!
# The daemon

The loop around `poll`: it serves the control socket after each turn, waits for the adapter
to come back when the radio fails, and on a stop writes the buffer out. An exception that
leaves the control socket ends the process. Whatever it goes through, the node is driven by
its own steps alone, and a client can make it announce and nothing else.
-/
namespace Beachedmesh
open Machine

/-! ### Clients -/

namespace Control

variable {E : Runtime} {c : Crypto} {n n' : Node} {k : Connection}

/-- The command that a request names. -/
def commandOf (E : Runtime) : Json → Option String
  | .obj fields => (commandText E fields).toOption
  | _ => none

/-- The command of the request, if one gets through. -/
def command? (E : Runtime) (k : Connection) : Option String :=
  if k.settimeout = false then none
  else
    k.recv.bind fun data => (String.fromUTF8? ⟨data.toArray⟩).bind fun text =>
      (parse E (strip text)).bind (commandOf E)

/-- The client asks for an announce. -/
def announces (E : Runtime) (k : Connection) : Bool := command? E k = some "announce"

/-- What goes out and is called back while one connection is served. -/
def serveEvents (E : Runtime) (n : Node) (k : Connection) : List Event :=
  if announces E k then
    match (n.sendAnnounce k.draw k.radio).2 with
    | .ok r => r.2
    | .error _ => []
  else []

/-- The same for all of them, up to the one that an exception leaves. -/
def serveAllEvents (E : Runtime) : Node → List Connection → List Event
  | _, [] => []
  | n, k :: ks =>
    match serve E n k with
    | (_, .error _) => serveEvents E n k
    | (n', .ok _) => serveEvents E n k ++ serveAllEvents E n' ks

theorem command?_of_asks {req : Json} (h : Asks E k req) : command? E k = commandOf E req := by
  obtain ⟨data, text, hset, hdata, htext, hreq⟩ := h
  rw [command?, if_neg (by rw [hset]; decide), hdata, Option.bind_some, htext, Option.bind_some,
    hreq, Option.bind_some]

theorem command?_of_not_asks (h : ∀ req, ¬ Asks E k req) : command? E k = none := by
  unfold command?
  split_ifs with hset
  · rfl
  · rw [Bool.not_eq_false] at hset
    cases hdata : k.recv with
    | none => rfl
    | some data =>
      rw [Option.bind_some]
      cases htext : String.fromUTF8? ⟨data.toArray⟩ with
      | none => rfl
      | some text =>
        rw [Option.bind_some]
        cases hreq : parse E (strip text) with
        | none => rfl
        | some req => exact absurd ⟨data, text, hset, hdata, htext, hreq⟩ (h req)

theorem cmdAnnounce_fst (n : Node) (k : Connection) :
    (cmdAnnounce n k).1 = (n.sendAnnounce k.draw k.radio).1 := by
  unfold cmdAnnounce
  split <;> simp_all

/-- A client that asks for an announce gets it sent; no other one changes the node. -/
theorem fst_request (E : Runtime) (n : Node) (k : Connection) :
    (request E n k).1 = if announces E k then (n.sendAnnounce k.draw k.radio).1 else n := by
  rcases request_cases E n k with ⟨req, hasks, heq⟩ | ⟨hnone, e, -, heq⟩
  · have hcommand := command?_of_asks hasks
    rw [heq, announces, hcommand, commandOf.eq_def]
    cases req with
    | obj fields =>
      cases htext : commandText E fields with
      | error e => simp [handle, htext, Except.toOption]
      | ok cmd =>
        simp only [handle, htext, Except.toOption, Option.some.injEq, decide_eq_true_eq]
        split_ifs <;> simp_all [cmdAnnounce_fst]
    | _ => simp [handle]
  · rw [heq, announces, command?_of_not_asks hnone]
    simp

theorem fst_serve (E : Runtime) (n : Node) (k : Connection) :
    (serve E n k).1 = if announces E k then (n.sendAnnounce k.draw k.radio).1 else n :=
  fst_request E n k

/-- An announce that does not pack leaves the socket as an exception. -/
theorem request_structError (hk : announces E k = true)
    (h : (n.sendAnnounce k.draw k.radio).2 = .error .structError) :
    (request E n k).2 = .error .pack := by
  rcases request_cases E n k with ⟨req, hasks, heq⟩ | ⟨hnone, -⟩
  · have hcommand := command?_of_asks hasks
    rw [announces, hcommand, commandOf.eq_def, decide_eq_true_eq] at hk
    rw [heq]
    cases req with
    | obj fields =>
      cases htext : commandText E fields with
      | error e => simp [htext, Except.toOption] at hk
      | ok cmd =>
        obtain rfl : cmd = "announce" := by simpa [htext, Except.toOption] using hk
        rcases hsend : n.sendAnnounce k.draw k.radio with ⟨u, r⟩
        rw [hsend] at h
        simp only [handle, htext, cmdAnnounce, hsend]
        cases h
        simp
    | _ => simp at hk
  · rw [announces, command?_of_not_asks hnone] at hk
    simp at hk

theorem packs_of_serve {r : Option Json} (h : (serve E n k).2 = .ok r) (hk : announces E k = true) :
    (n.sendAnnounce k.draw k.radio).2 ≠ .error .structError := by
  intro hpack
  have hreq := request_structError hk hpack
  unfold serve at h
  simp only [hreq, refuse, Exn.caught, Bool.false_eq_true, if_false] at h
  split_ifs at h

end Control

/-! ### Runs of a node that handle given frames -/

namespace Node

variable {c : Crypto} {n n' n₁ n₂ n₃ : Node} {es e₁ e₂ : List Event}

/-- What `recv` handed to the step. -/
def Op.got? : Op → Option (Bytes × FrameMeta × HandleClock)
  | .frame data m clk => some (data, m, clk)
  | _ => none

/-- Some run of steps leads from `n` to `n'`, emits `es` and handles the frames `gs`. -/
def Handles (c : Crypto) (n n' : Node) (es : List Event)
    (gs : List (Bytes × FrameMeta × HandleClock)) : Prop :=
  ∃ ops ess, exec (step c) n ops = some (n', ess) ∧ ess.flatten = es ∧ ops.filterMap Op.got? = gs

theorem Handles.nil (c : Crypto) (n : Node) : Handles c n n [] [] := ⟨[], [], rfl, rfl, rfl⟩

theorem Handles.trans {g₁ g₂ : List (Bytes × FrameMeta × HandleClock)}
    (h₁ : Handles c n₁ n₂ e₁ g₁) (h₂ : Handles c n₂ n₃ e₂ g₂) :
    Handles c n₁ n₃ (e₁ ++ e₂) (g₁ ++ g₂) := by
  obtain ⟨ops₁, ess₁, hx₁, rfl, rfl⟩ := h₁
  obtain ⟨ops₂, ess₂, hx₂, rfl, rfl⟩ := h₂
  exact ⟨ops₁ ++ ops₂, ess₁ ++ ess₂, exec_append_iff.mpr ⟨n₂, ess₁, ess₂, hx₁, hx₂, rfl⟩,
    List.flatten_append, List.filterMap_append⟩

theorem handles_of_step {op : Op} (h : n.step c op = some (n', es)) :
    Handles c n n' es op.got?.toList := by
  refine ⟨[op], [es], exec_cons_iff.mpr ⟨n', es, [], h, rfl, rfl⟩, by simp, ?_⟩
  cases hop : op.got? <;> simp [hop]

theorem handles_receive {got : Option (Bytes × FrameMeta × HandleClock)}
    (h : n.receive c got = some (n', es)) : Handles c n n' es got.toList := by
  cases got with
  | none =>
    obtain ⟨rfl, rfl⟩ := Prod.mk.inj (Option.some.inj h)
    exact Handles.nil c n
  | some g =>
    have hframe : n.step c (.frame g.1 g.2.1 g.2.2) = some (n', es) := h
    exact handles_of_step hframe

theorem handles_relayDue {now : ℚ} {sends : ℕ} {done : Bool}
    (h : n.relayDue now sends = some (n', es, done)) : Handles c n n' es [] := by
  have hone : n.step c (.relay now sends) = some (n', es) := by
    simp only [step, h, Option.map_some]
  exact handles_of_step hone

theorem handles_announceStep {d : AnnounceDraw} {ok done : Bool}
    (h : n.announceStep d ok = some (n', es, done)) : Handles c n n' es [] := by
  have hone : n.step c (.announce d ok) = some (n', es) := by
    simp only [step, h, Option.map_some]
  exact handles_of_step hone

theorem handles_maintain {i : Turn} (h : n.maintain i = some (n', es)) :
    Handles c n n' es [] := by
  obtain ⟨t, ht, he⟩ := Option.map_eq_some_iff.mp h
  have htick : n.step c (.tick i.tick) = some ({ n with routes := t }, []) := by
    simp only [step, ht, Option.map_some]
  have hticked : Handles c n { n with routes := t } [] [] := handles_of_step htick
  dsimp only at he
  split_ifs at he with hdue
  · have hexpire : step c { n with routes := t } (.expire i.now i.expireNow i.expireCold) =
        some (n', es) := congrArg some he
    exact hticked.trans (handles_of_step hexpire)
  · obtain ⟨rfl, rfl⟩ := Prod.mk.inj he
    exact hticked

/-- A turn of the loop handles what `recv` returned. -/
theorem handles_poll {i : Turn} {ok : Bool} (h : n.poll c i = some (n', es, ok)) :
    Handles c n n' es i.got.toList := by
  cases poll_cases h with
  | relayFailed h₀ h₁ => simpa using (handles_receive h₀).trans (handles_relayDue h₁)
  | announceFailed h₀ h₁ h₂ =>
    simpa using (handles_receive h₀).trans
      ((handles_relayDue (c := c) h₁).trans (handles_announceStep h₂))
  | announced h₀ h₁ h₂ h₃ =>
    simpa using (handles_receive h₀).trans ((handles_relayDue (c := c) h₁).trans
      ((handles_announceStep (c := c) h₂).trans (handles_maintain h₃)))
  | quiet h₀ h₁ h₃ =>
    simpa using (handles_receive h₀).trans
      ((handles_relayDue (c := c) h₁).trans (handles_maintain h₃))

end Node

open Node

/-! ### Serving between the turns -/

namespace Control

variable {E : Runtime} {c : Crypto} {n n' : Node} {k : Connection}

/-- A served connection is an announce of the node, or nothing. -/
theorem handles_serve {r : Option Json} (h : serve E n k = (n', .ok r)) :
    Handles c n n' (serveEvents E n k) [] := by
  have hfst := fst_serve E n k
  rw [h] at hfst
  dsimp only at hfst
  rw [serveEvents]
  split_ifs at hfst ⊢ with hk
  · have hpacks : (n.sendAnnounce k.draw k.radio).2 ≠ .error .structError :=
      packs_of_serve (E := E) (by rw [h]) hk
    rcases hsend : n.sendAnnounce k.draw k.radio with ⟨u, res⟩
    rw [hsend] at hfst hpacks
    subst hfst
    match res, hsend, hpacks with
    | .error .structError, _, hpacks => exact absurd rfl hpacks
    | .error .osError, hsend, _ =>
      have hstep : n.announceStep k.draw k.radio = some (n', [], false) := by
        rw [announceStep, hsend]
      exact handles_announceStep hstep
    | .ok r, hsend, _ =>
      have hstep : n.announceStep k.draw k.radio = some (n', r.2, true) := by
        rw [announceStep, hsend]
      exact handles_announceStep hstep
  · subst hfst
    exact Handles.nil c _

theorem handles_serveAll {ks : List Connection} {rs : List (Option Json)}
    (h : serveAll E n ks = (n', .ok rs)) : Handles c n n' (serveAllEvents E n ks) [] := by
  induction ks generalizing n rs with
  | nil =>
    obtain ⟨rfl, -⟩ := Prod.mk.inj h
    exact Handles.nil c n
  | cons k ks ih =>
    rw [serveAll] at h
    rw [serveAllEvents]
    rcases hone : serve E n k with ⟨u, e | r⟩
    · rw [hone] at h
      cases h
    · rw [hone] at h
      obtain ⟨hn, hr⟩ := Prod.mk.inj h
      cases hrest : (serveAll E u ks).2 with
      | error e =>
        rw [hrest] at hr
        cases hr
      | ok rs' =>
        have hall : serveAll E u ks = (n', .ok rs') := Prod.ext hn hrest
        simpa using (handles_serve (c := c) hone).trans (ih hall)

end Control

/-! ### The main loop -/

/-- `every and elapsed >= every`. -/
def PyFloat.reached : PyFloat → ℚ → Bool
  | .finite x, elapsed => x ≠ 0 && x ≤ elapsed
  | .infinite negative, _ => negative
  | .nan, _ => false

inductive Phase where
  | running
  | recovering
  | stopped
  deriving DecidableEq

/-- The daemon from its first turn on. -/
structure Daemon where
  node : Node
  listening : Bool
  statusEvery : PyFloat
  lastStatus : ℚ
  phase : Phase

namespace Daemon

/-- What the main loop meets: a turn, with the clients waiting after it and the readings of
the status check; an `OSError` out of `recv`; a try at the adapter while the radio is gone;
a signal. -/
inductive Input where
  | turn (i : Turn) (ks : List Connection) (check reportedAt : ℚ)
  | recvFails
  | retry (present usable reopened : Bool)
  | stop (mono : ℚ)

structure Output where
  events : List Event
  replies : List (Option Json)
  reported : Bool

/-- A turn of the loop; a failed send leaves it before the clients are served. -/
def turn (E : Runtime) (c : Crypto) (d : Daemon) (i : Turn) (ks : List Connection)
    (check reportedAt : ℚ) : Option (Daemon × Output) :=
  (d.node.poll c i).bind fun r =>
    if r.2.2 = false then some ({ d with node := r.1, phase := .recovering }, ⟨r.2.1, [], false⟩)
    else
      let served := if d.listening then Control.serveAllEvents E r.1 ks else []
      let due := d.statusEvery.reached (check - d.lastStatus)
      (Control.poll E d.listening r.1 ks).2.toOption.map fun replies =>
        ({ d with
          node := (Control.poll E d.listening r.1 ks).1
          lastStatus := if due then reportedAt else d.lastStatus },
          ⟨r.2.1 ++ served, replies, due⟩)

/-- `none` when an exception leaves the loop, and for what a phase does not meet. -/
def step (E : Runtime) (c : Crypto) (d : Daemon) : Input → Option (Daemon × Output)
  | .turn i ks check reportedAt =>
    if d.phase = .running then d.turn E c i ks check reportedAt else none
  | .recvFails =>
    if d.phase = .running then some ({ d with phase := .recovering }, ⟨[], [], false⟩) else none
  | .retry present usable reopened =>
    if d.phase = .recovering then
      some ({ d with phase := if present && usable && reopened then .running else .recovering },
        ⟨[], [], false⟩)
    else none
  | .stop mono =>
    if d.phase = .stopped then none
    else
      some ({ d with
        node := { d.node with routes := d.node.routes.flush mono }
        phase := .stopped }, ⟨[], [], true⟩)

variable {E : Runtime} {c : Crypto} {d d' : Daemon} {o : Output}

/-- Everything a turn can do. -/
inductive Turned (E : Runtime) (c : Crypto) (d : Daemon) (i : Turn) (ks : List Connection)
    (check reportedAt : ℚ) : Daemon → Output → Prop
  | failed {n : Node} {es : List Event} : d.node.poll c i = some (n, es, false) →
      Turned E c d i ks check reportedAt { d with node := n, phase := .recovering }
        ⟨es, [], false⟩
  | served {n n' : Node} {es : List Event} {replies : List (Option Json)} :
      d.node.poll c i = some (n, es, true) →
      Control.poll E d.listening n ks = (n', .ok replies) →
      Turned E c d i ks check reportedAt
        { d with
          node := n'
          lastStatus := if d.statusEvery.reached (check - d.lastStatus) then reportedAt
            else d.lastStatus }
        ⟨es ++ if d.listening then Control.serveAllEvents E n ks else [], replies,
          d.statusEvery.reached (check - d.lastStatus)⟩

theorem turn_cases {i : Turn} {ks : List Connection} {check reportedAt : ℚ}
    (h : d.turn E c i ks check reportedAt = some (d', o)) :
    Turned E c d i ks check reportedAt d' o := by
  obtain ⟨⟨n, es, ok⟩, hpoll, h⟩ := Option.bind_eq_some_iff.mp h
  cases ok with
  | false =>
    obtain ⟨rfl, rfl⟩ := Prod.mk.inj (Option.some.inj h)
    exact .failed hpoll
  | true =>
    obtain ⟨replies, hok, h⟩ := Option.map_eq_some_iff.mp h
    obtain ⟨rfl, rfl⟩ := Prod.mk.inj h
    refine .served hpoll (Prod.ext rfl ?_)
    cases hserved : (Control.poll E d.listening n ks).2 with
    | error e =>
      rw [hserved] at hok
      cases hok
    | ok rs =>
      rw [hserved] at hok
      exact congrArg Except.ok (Option.some.inj hok)

namespace Input

/-- The frame that the turn handles. -/
def got? : Input → Option (Bytes × FrameMeta × HandleClock)
  | .turn i _ _ _ => i.got
  | _ => none

/-- The same without the clients. -/
def alone : Input → Input
  | .turn i _ check reportedAt => .turn i [] check reportedAt
  | i => i

/-- Every waiting client sends something harmless other than `announce`. -/
def Inspects (E : Runtime) (hopLimit : ℤ) : Input → Prop
  | .turn _ ks _ _ => ∀ k ∈ ks, k.close = true ∧ Control.Harmless E hopLimit k ∧
      Control.announces E k = false
  | _ => True

end Input

theorem handles_controlPoll {listening : Bool} {n n' : Node} {ks : List Connection}
    {rs : List (Option Json)} (h : Control.poll E listening n ks = (n', .ok rs)) :
    Handles c n n' (if listening then Control.serveAllEvents E n ks else []) [] := by
  unfold Control.poll at h
  cases listening with
  | true => exact Control.handles_serveAll h
  | false =>
    obtain ⟨rfl, -⟩ := Prod.mk.inj h
    exact Handles.nil c n

/-- One pass of the loop drives the node by its own steps. -/
theorem handles_step {i : Input} (h : d.step E c i = some (d', o)) :
    Handles c d.node d'.node o.events i.got?.toList := by
  cases i with
  | turn i ks check reportedAt =>
    obtain ⟨-, hturn⟩ := Option.ite_none_right_eq_some.mp h
    cases turn_cases hturn with
    | failed hpoll => exact handles_poll hpoll
    | served hpoll hserved =>
      simpa [Input.got?] using (handles_poll hpoll).trans (handles_controlPoll hserved)
  | recvFails =>
    obtain ⟨-, hfails⟩ := Option.ite_none_right_eq_some.mp h
    obtain ⟨rfl, rfl⟩ := Prod.mk.inj (Option.some.inj hfails)
    exact Handles.nil c d.node
  | retry present usable reopened =>
    obtain ⟨-, hretry⟩ := Option.ite_none_right_eq_some.mp h
    obtain ⟨rfl, rfl⟩ := Prod.mk.inj (Option.some.inj hretry)
    exact Handles.nil c d.node
  | stop mono =>
    obtain ⟨-, hstop⟩ := Option.ite_none_left_eq_some.mp h
    obtain ⟨rfl, rfl⟩ := Prod.mk.inj (Option.some.inj hstop)
    have hflush : d.node.step c (.flush mono) =
        some ({ d.node with routes := d.node.routes.flush mono }, []) := rfl
    exact handles_of_step hflush

theorem handles_exec {ins : List Input} {os : List Output}
    (h : exec (step E c) d ins = some (d', os)) :
    Handles c d.node d'.node (os.flatMap Output.events) (ins.filterMap Input.got?) := by
  induction ins generalizing d os with
  | nil =>
    obtain ⟨rfl, rfl⟩ := Prod.mk.inj (Option.some.inj h)
    exact Handles.nil c d.node
  | cons i ins ih =>
    obtain ⟨d₁, o, os', hone, hrest, rfl⟩ := exec_cons_iff.mp h
    have htrans := (handles_step hone).trans (ih hrest)
    rw [List.filterMap_cons]
    cases hgot : i.got? with
    | none => simpa [hgot] using htrans
    | some g => simpa [hgot] using htrans

end Daemon

/-! ### Clients that only look -/

namespace Control

variable {E : Runtime} {n : Node} {ks : List Connection}

/-- Clients that ask for no announce leave the node as it is. -/
theorem serveAll_inspected (h : ∀ k ∈ ks, k.close = true ∧ Harmless E n.hopLimit k ∧
    announces E k = false) :
    (serveAll E n ks).1 = n ∧ (∃ rs, (serveAll E n ks).2 = .ok rs) ∧
      serveAllEvents E n ks = [] := by
  refine ⟨?_, (serveAll_returns_iff E n ks).mpr fun k hk => ⟨(h k hk).1, (h k hk).2.1⟩, ?_⟩
  all_goals
    induction ks with
    | nil => rfl
    | cons k ks ih =>
      obtain ⟨⟨hclose, hharmless, hann⟩, hks⟩ := List.forall_mem_cons.mp h
      obtain ⟨r, hr⟩ := (serve_returns_iff E n k).mpr ⟨hclose, hharmless⟩
      have hfst : (serve E n k).1 = n := by rw [fst_serve, hann, if_neg Bool.false_ne_true]
      have hserve : serve E n k = (n, .ok r) := Prod.ext hfst hr
      simp only [serveAll, serveAllEvents, hserve, serveEvents, hann, ih hks,
        Bool.false_eq_true, if_false, List.append_nil]

/-- To the node it is as if they were not there. -/
theorem poll_inspected (listening : Bool) (h : ∀ k ∈ ks, k.close = true ∧
    Harmless E n.hopLimit k ∧ announces E k = false) :
    ∃ rs, Control.poll E listening n ks = (n, .ok rs) := by
  cases listening with
  | false => exact ⟨[], rfl⟩
  | true =>
    obtain ⟨hn, ⟨rs, hrs⟩, -⟩ := serveAll_inspected h
    exact ⟨rs, Prod.ext hn hrs⟩

end Control

namespace Daemon

variable {E : Runtime} {c : Crypto} {d d' : Daemon} {o : Output}

/-- What happens apart from the replies. -/
def Output.besides (o : Output) : List Event × Bool := (o.events, o.reported)

theorem hopLimit_poll {n n' : Node} {i : Turn} {es : List Event} {ok : Bool}
    (h : n.poll c i = some (n', es, ok)) : n'.hopLimit = n.hopLimit := by
  obtain ⟨ops, ess, hx, -⟩ := runs_poll h
  exact (config_exec hx).hopLimit_eq

theorem hopLimit_step {i : Input} (h : d.step E c i = some (d', o)) :
    d'.node.hopLimit = d.node.hopLimit := by
  obtain ⟨ops, ess, hx, -⟩ := handles_step h
  exact (config_exec hx).hopLimit_eq

theorem step_inspected {i : Input} (hi : i.Inspects E d.node.hopLimit) :
    (d.step E c i).map (fun r => (r.1, r.2.besides)) =
      (d.step E c i.alone).map fun r => (r.1, r.2.besides) := by
  cases i with
  | turn i ks check reportedAt =>
    simp only [Input.alone, step]
    split_ifs
    · unfold turn
      cases hpoll : d.node.poll c i with
      | none => rfl
      | some r =>
        obtain ⟨n, es, ok⟩ := r
        cases ok with
        | false => rfl
        | true =>
          have hks : ∀ k ∈ ks, k.close = true ∧ Control.Harmless E n.hopLimit k ∧
              Control.announces E k = false := (hopLimit_poll hpoll).symm ▸ hi
          obtain ⟨rs, hrs⟩ := Control.poll_inspected d.listening hks
          obtain ⟨rs', hrs'⟩ : ∃ rs, Control.poll E d.listening n [] = (n, .ok rs) :=
            Control.poll_inspected d.listening (by simp)
          simp [hrs, hrs', (Control.serveAll_inspected hks).2.2, Control.serveAllEvents,
            Except.toOption, Output.besides]
    · rfl
  | recvFails => rfl
  | retry present usable reopened => rfl
  | stop mono => rfl

end Daemon

/-- A daemon about to take its first turn. -/
def Daemon.sample : Daemon := ⟨Node.sampleStart, true, .finite 300, 0, .running⟩

/-- A client that connects and closes: the empty line asks for the status. -/
def Control.silentClient : Connection :=
  { Control.sampleClient with recv := some [] }

/-- A turn at time 100 with a genuine announce, and a client after it. -/
def Daemon.sampleTurn : Daemon.Input :=
  .turn ⟨some ((sampleAnnounce 3).frame, ⟨macOf 1, some (-50)⟩, HandleClock.const 100), 100, 100, 2,
    ⟨⟨List.replicate randomLen 0, length_zeros⟩, packetIdOf 5, 100, 100⟩, true,
    ⟨100, 100, 100, 100⟩, 100, 100⟩ [Control.silentClient] 100 100

/-- However the daemon runs, through failures of the radio and whatever its clients send,
its node goes through steps of its own: they handle the frames that the turns received, in
that order, and emit what the daemon lets out. -/
theorem daemon_runs_node {E : Runtime} {c : Crypto} {d d' : Daemon} {ins : List Daemon.Input}
    {os : List Daemon.Output} (h : exec (Daemon.step E c) d ins = some (d', os)) :
    Handles c d.node d'.node (os.flatMap Daemon.Output.events)
      (ins.filterMap Daemon.Input.got?) :=
  Daemon.handles_exec h

/-- The radio fails and comes back, an announce is heard, and the daemon is stopped. -/
theorem daemon_runs_node_recovered : ∃ (d' : Daemon) (os : List Daemon.Output),
    Handles sampleCrypto Daemon.sample.node d'.node (os.flatMap Daemon.Output.events)
      [((sampleAnnounce 3).frame, ⟨macOf 1, some (-50)⟩, HandleClock.const 100)] := by
  have hrun : (exec (Daemon.step Control.sampleRuntime sampleCrypto) Daemon.sample
      [.recvFails, .retry true false false, .retry true true true, Daemon.sampleTurn,
        .stop 101]).isSome = true := by decide +kernel
  obtain ⟨⟨d', os⟩, h⟩ := Option.isSome_iff_exists.mp hrun
  exact ⟨d', os, daemon_runs_node h⟩

/-- Clients that send anything harmless but `announce` change nothing: with and without them
the daemon ends in the same state or with the same exception, and lets out the same. -/
theorem inspection_changes_nothing {E : Runtime} {c : Crypto} {d : Daemon}
    {ins : List Daemon.Input} (h : ∀ i ∈ ins, i.Inspects E d.node.hopLimit) :
    (exec (Daemon.step E c) d ins).map (fun r => (r.1, r.2.map Daemon.Output.besides)) =
      (exec (Daemon.step E c) d (ins.map Daemon.Input.alone)).map
        fun r => (r.1, r.2.map Daemon.Output.besides) := by
  induction ins generalizing d with
  | nil => rfl
  | cons i ins ih =>
    obtain ⟨hi, hins⟩ := List.forall_mem_cons.mp h
    have hone := Daemon.step_inspected (c := c) hi
    simp only [List.map_cons, exec]
    cases hstep : d.step E c i with
    | none =>
      rw [hstep] at hone
      rw [Option.map_eq_none_iff.mp hone.symm]
      rfl
    | some r =>
      obtain ⟨d₁, o⟩ := r
      rw [hstep] at hone
      obtain ⟨⟨d₂, o'⟩, hstep', heq⟩ := Option.map_eq_some_iff.mp hone.symm
      obtain ⟨rfl, ho⟩ := Prod.mk.inj heq
      have hrest := ih (d := d₂) fun j hj => (Daemon.hopLimit_step hstep).symm ▸ hins j hj
      rw [hstep', Option.bind_some, Option.bind_some, Option.map_map, Option.map_map]
      cases hx : exec (Daemon.step E c) d₂ ins with
      | none =>
        rw [hx] at hrest
        rw [Option.map_eq_none_iff.mp hrest.symm]
        rfl
      | some q =>
        rw [hx] at hrest
        obtain ⟨q', hx', hq⟩ := Option.map_eq_some_iff.mp hrest.symm
        rw [hx']
        obtain ⟨hfst, hsnd⟩ := Prod.mk.inj hq
        simp [hfst, hsnd, ho]

theorem inspection_changes_nothing_silent :
    (exec (Daemon.step Control.sampleRuntime sampleCrypto) Daemon.sample
        [Daemon.sampleTurn]).map (fun r => (r.1, r.2.map Daemon.Output.besides)) =
      (exec (Daemon.step Control.sampleRuntime sampleCrypto) Daemon.sample
        [Daemon.sampleTurn.alone]).map fun r => (r.1, r.2.map Daemon.Output.besides) := by
  have htext : String.fromUTF8? ⟨#[]⟩ = some "" := by decide +kernel
  have hstrip : strip "" = "" := by decide +kernel
  have hasks : Control.Asks Control.sampleRuntime Control.silentClient (.obj []) :=
    ⟨[], "", rfl, rfl, htext, by rw [hstrip]; rfl⟩
  refine inspection_changes_nothing fun i hi => ?_
  obtain rfl := List.mem_singleton.mp hi
  intro k hk
  obtain rfl := List.mem_singleton.mp hk
  refine ⟨rfl, fun req hreq => ?_, ?_⟩
  · rw [hasks.unique hreq]
    exact ⟨by simp, by simp⟩
  · rw [Control.announces, Control.command?_of_asks hasks]
    rfl

end Beachedmesh
