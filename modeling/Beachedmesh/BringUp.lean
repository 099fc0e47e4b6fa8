import Beachedmesh.Adapter
import Beachedmesh.Daemon
import Beachedmesh.DaemonOptions

/-!
# Bringing the adapter up

Before the daemon runs its node it waits for the adapter, puts it in monitor mode and tests
whether it hears anything; it reloads the driver under a deaf one, twice at most. When
the radio fails later it brings the adapter up again, and leaves the driver alone.
-/
namespace Beachedmesh
open PyText Script

namespace Daemon

def maxDeafReloads : ℕ := 2

variable (w : World) (a : Args) (iface : Text) (fuel : ℕ)

/-- Block until the interface exists. -/
def waitForIface : Sys Bool := do
  if ← w.pathExists (net iface) then return true
  else
    loop .running (fun _ : Unit => do
      if ← look w.stopping then return .inr false
      else
        sleep 2
        if ← w.pathExists (net iface) then
          sleep 2
          return .inr true
        else return .inl ()) fuel ()

def adapterUp : Sys Bool := do
  if ← waitForIface w iface fuel then verifyAndConfigure w iface else return false

/-- Whether anything at all is arriving; `none` if it cannot be tested. -/
def radioHears : Sys (Option Bool) := do
  let heard ← framesHeard w iface listenSeconds
  return heard.map (· ≠ 0)

/-- Reload the driver under a radio that hears nothing. -/
def recoverDeafRadio : Sys Bool := do
  if ← reloadDriver w then Beachedmesh.waitForIface w iface fuel else return false

def retryDelay (attempt : ℕ) : ℚ := min 60 (5 * attempt)

/-- One round of the loop in `main`, from the failed attempts and the reloads so far. -/
def configureRound (b : ℕ × ℕ) : Sys ((ℕ × ℕ) ⊕ Unit) := do
  if ← look w.stopping then return .inr ()
  else if ← adapterUp w iface fuel then
    if a.noListenCheck then return .inr ()
    else if (← radioHears w iface) ≠ some false then return .inr ()
    else if maxDeafReloads ≤ b.2 then return .inr ()
    else
      let _ ← recoverDeafRadio w iface fuel
      return .inl (b.1, b.2 + 1)
  else
    sleep (retryDelay (b.1 + 1))
    return .inl (b.1 + 1, b.2)

/-- The loop, and whether the daemon goes on. -/
def configure (b : ℕ × ℕ) : Sys Bool := do
  loop .running (configureRound w a iface fuel) fuel b
  return !(← look w.stopping)

def bringUp : Sys Bool := do
  if a.noConfigure then return true else configure w a iface fuel (0, 0)

/-- The inner loop of `main`, while the radio is gone; `false` if a stop ends it. -/
def regain : Sys Bool :=
  loop .running (fun _ : Unit => do
    if ← look w.stopping then return .inr false
    else if ← adapterUp w iface fuel then
      if ← w.link iface then return .inr true
      else
        sleep 5
        return .inl ()
    else
      sleep 5
      return .inl ()) fuel ()

/-! ### What the log of it looks like -/

def backoffs (l : List Call) : List ℚ := l.filterMap Call.backoff

/-- The waits after so many failed attempts. -/
def delays (n : ℕ) : List ℚ := (List.range n).map fun k => retryDelay (k + 1)

/-- Every check has been passed, and then nothing at all was heard. -/
def Deafened (l : List Call) : Prop :=
  ∃ before ready x, l = before ++ ready ++
      [.listen iface (some x), .which "modprobe".toList true] ∧
    Configured iface ready ∧ x.frames listenSeconds = some 0

/-- The driver is unloaded under a deaf radio only, twice at most, and not at all without the
listening test; a reload comes directly after every deaf listening that is not the last call,
and is carried through; the waits grow with the attempts. -/
structure Careful (l : List Call) : Prop where
  guarded : Guarded Call.unloads (Deafened iface) l
  few : l.countP Call.unloads ≤ maxDeafReloads
  allowed : a.noListenCheck = true → l.countP Call.unloads = 0
  follows : l.IsChain Follows
  waits : ∃ n, backoffs l = delays n

/-- The adapter has just passed every check; and the radio hears, or cannot be tested, or is
deaf as it was in two listenings before. -/
def BroughtUp (l : List Call) : Prop :=
  ∃ before ready tail, l = before ++ ready ++ tail ∧ Configured iface ready ∧
    (a.noListenCheck = true ∧ tail = [] ∨
      a.noListenCheck = false ∧ ∃ x, tail = [.listen iface x] ∧
        (x.bind (·.frames listenSeconds) ≠ some 0 ∨
          (before ++ ready).countP Call.deaf = maxDeafReloads))

/-- After so many failed attempts and so many reloads, the last of which may be under way. -/
structure Trying (b : ℕ × ℕ) (l : List Call) : Prop where
  guarded : Guarded Call.unloads (Deafened iface) l
  unloads : l.countP Call.unloads ≤ b.2
  deaf : l.countP Call.deaf = b.2
  few : b.2 ≤ maxDeafReloads
  allowed : a.noListenCheck = true → b.2 = 0
  follows : l.IsChain Follows
  waits : backoffs l = delays b.1

variable {w : World} {a : Args} {iface : Text} {fuel : ℕ} {l t seg : List Call} {b : ℕ × ℕ}

theorem Trying.careful (h : Trying a iface b l) : Careful a iface l where
  guarded := h.guarded
  few := h.unloads.trans h.few
  allowed ha := Nat.le_zero.mp (h.allowed ha ▸ h.unloads)
  follows := h.follows
  waits := ⟨b.1, h.waits⟩

theorem backoffs_append (hseg : seg.filterMap Call.backoff = []) :
    backoffs (l ++ seg) = backoffs l := by
  rw [backoffs, List.filterMap_append, hseg, List.append_nil]
  rfl

theorem backoffs_grown (h : Grown Call.Quiet l t) : backoffs t = backoffs l := by
  obtain ⟨more, rfl, hmore⟩ := h
  exact backoffs_append (List.filterMap_eq_nil_iff.mpr fun c hc => (hmore c hc).backoff)

/-- A listening changes nothing but the count of the deaf ones. -/
theorem Trying.listen (h : Trying a iface b l) (hset : Settled Follows l) (x : Option Listening) :
    Careful a iface (l ++ [.listen iface x]) where
  guarded := guarded_concat.mpr ⟨h.guarded, fun hc => by cases hc⟩
  few := by simpa [Call.unloads] using h.careful.few
  allowed ha := by simpa [Call.unloads] using h.careful.allowed ha
  follows := hset.isChain_append h.follows (List.isChain_singleton _)
  waits := ⟨b.1, (backoffs_append rfl).trans h.waits⟩

/-- Between two rounds: no reload is under way. -/
structure Resting (a : Args) (iface : Text) (b : ℕ × ℕ) (l : List Call) : Prop where
  trying : Trying a iface b l
  settled : Settled Follows l

theorem Resting.grown (h : Resting a iface b l) (hgrown : Grown Call.Quiet l t) :
    Resting a iface b t where
  trying := {
    guarded := h.trying.guarded.grown hgrown fun _ hc => hc.unloads
    unloads := (hgrown.countP_eq fun _ hc => hc.unloads).trans_le h.trying.unloads
    deaf := (hgrown.countP_eq fun _ hc => hc.deaf).trans h.trying.deaf
    few := h.trying.few
    allowed := h.trying.allowed
    follows := h.settled.isChain_grown h.trying.follows hgrown fun _ hc => hc.free
    waits := (backoffs_grown hgrown).trans h.trying.waits }
  settled := h.settled.grown hgrown fun _ hc => hc.free

theorem le_retryDelay (n : ℕ) : 5 ≤ retryDelay (n + 1) := by
  have hfive : (5 : ℚ) ≤ 5 * ((n + 1 : ℕ) : ℚ) := by
    have hn : (0 : ℚ) ≤ n := Nat.cast_nonneg _
    push_cast
    linarith
  exact le_min (by norm_num) hfive

/-- The next of the waits. -/
theorem Resting.wait (h : Resting a iface b l) :
    Resting a iface (b.1 + 1, b.2) (l ++ [.sleep (retryDelay (b.1 + 1))]) where
  trying := {
    guarded := guarded_concat.mpr ⟨h.trying.guarded, fun hc => by cases hc⟩
    unloads := by simpa [Call.unloads] using h.trying.unloads
    deaf := by simpa [Call.deaf] using h.trying.deaf
    few := h.trying.few
    allowed := h.trying.allowed
    follows := h.settled.isChain_append h.trying.follows (List.isChain_singleton _)
    waits := by
      have hwaits := h.trying.waits
      rw [backoffs, delays] at hwaits ⊢
      rw [List.filterMap_append, hwaits, List.range_succ, List.map_append]
      simp [Call.backoff, le_retryDelay] }
  settled := by
    refine (settled_append (List.cons_ne_nil _ _)).mpr fun c hc d => ?_
    obtain rfl := Option.some.inj hc
    have hlong : settleSeconds < retryDelay (b.1 + 1) :=
      lt_of_lt_of_le (by norm_num [settleSeconds]) (le_retryDelay b.1)
    exact fun heq => absurd heq hlong.ne'

/-- A deaf radio with a reload left, and that reload as far as it has come. -/
theorem Resting.reload {x : Listening} (h : Resting a iface b l) (hleft : b.2 < maxDeafReloads)
    (ha : a.noListenCheck = false) (hx : x.frames listenSeconds = some 0)
    (hready : ∃ before ready, l = before ++ ready ∧ Configured iface ready) (hseg : Reload seg) :
    Trying a iface (b.1, b.2 + 1) (l ++ [.listen iface (some x)] ++ seg) where
  guarded := by
    refine (h.trying.listen h.settled (some x)).guarded.append ?_
    refine hseg.guarded.mono fun pre hpre => ?_
    obtain ⟨before, ready, rfl, hconf⟩ := hready
    exact ⟨before, ready, x, by simp [hpre], hconf, hx⟩
  unloads := by
    have hunloads := h.trying.unloads
    have hone := hseg.unloads_le
    rw [List.countP_append, List.countP_append]
    simp only [List.countP_singleton, Call.unloads]
    simp only [Bool.false_eq_true, if_false]
    omega
  deaf := by
    rw [List.countP_append, List.countP_append, h.trying.deaf, hseg.not_deaf]
    simp [Call.deaf, hx]
  few := hleft
  allowed hskip := by
    rw [ha] at hskip
    cases hskip
  follows := by
    rw [List.append_assoc]
    exact h.settled.isChain_append h.trying.follows hseg.follows
  waits := by
    rw [backoffs_append hseg.backoff, backoffs_append rfl]
    exact h.trying.waits

/-! ### The rounds -/

theorem calls_daemonWait : (waitForIface w iface fuel).Calls Call.Quiet := by
  have htwo : (sleep 2).Calls Call.Quiet := calls_sleep (by norm_num [settleSeconds])
  refine (calls_present _).bind fun is => Calls.ite (calls_pure _) ?_
  refine Calls.loop (fun _ => ?_) fuel ()
  refine (calls_look _).bind fun stop => Calls.ite (calls_pure _) ?_
  refine htwo.bind fun _ => (calls_present _).bind fun is => ?_
  exact Calls.ite (htwo.bind fun _ => calls_pure _) (calls_pure _)

/-- What has been seen of the adapter stands after everything that was in the log. -/
theorem wp_adapterUp : (adapterUp w iface fuel).wp
    (fun r t => Grown Call.Quiet l t ∧
      (r = true → ∃ before ready, t = before ++ ready ∧ l <+: before ∧ Configured iface ready))
    (Grown Call.Quiet l) l := by
  refine wp_bind.mpr ((calls_daemonWait l).mono (fun r t ht => ?_) fun _ h => h)
  refine wp_ite.mpr ⟨fun _ => ?_, fun _ => ?_⟩
  · refine wp_verifyAndConfigure.mono (fun r u hu => ⟨ht.trans hu.1, fun hr => ?_⟩)
      fun _ hu => ht.trans hu
    obtain ⟨ready, rfl, hready⟩ := hu.2 hr
    obtain ⟨more, rfl, -⟩ := ht
    exact ⟨_, ready, rfl, List.prefix_append l more, hready⟩
  · exact wp_pure.mpr ⟨ht, ht, fun h => absurd h (by decide)⟩

/-- A reload and the wait for the interface, as far as they have come. -/
def Recovering (l t : List Call) : Prop :=
  ∃ seg, Reload seg ∧ (t = l ++ seg ∨ Grown Call.Quiet (l ++ seg) t ∧ Settled Follows (l ++ seg))

theorem wp_recoverDeafRadio : (recoverDeafRadio w iface fuel).wp
    (fun _ t => ∃ seg, Reload seg ∧ Grown Call.Quiet (l ++ seg) t ∧ Settled Follows (l ++ seg))
    (Recovering l) l := by
  refine wp_bind.mpr (wp_reloadDriver.mono (fun r t ht => ?_) ?_)
  · obtain ⟨seg, rfl, hseg⟩ := ht
    have hset : Settled Follows (l ++ seg) := (settled_append hseg.ne_nil).mpr hseg.settled
    refine wp_ite.mpr ⟨fun _ => ?_, fun _ => ?_⟩
    · exact (calls_waitForIface fuel _).mono (fun _ _ hu => ⟨seg, hseg.reload, hu, hset⟩)
        fun _ hu => ⟨seg, hseg.reload, Or.inr ⟨hu, hset⟩⟩
    · have hrefl := Grown.refl Call.Quiet (l ++ seg)
      exact wp_pure.mpr ⟨⟨seg, hseg.reload, Or.inl rfl⟩, seg, hseg.reload, hrefl, hset⟩
  · rintro t ⟨seg, rfl, hseg⟩
    exact ⟨seg, hseg, Or.inl rfl⟩

/-- One round: the loop goes on, or it ends because of a stop or with the adapter up. -/
theorem wp_configureRound (h : Resting a iface b l) : (configureRound w a iface fuel b).wp
    (fun r t => Sum.elim (fun b' => Resting a iface b' t)
      (fun _ => Careful a iface t ∧ (w.stopping t = true ∨ BroughtUp a iface t)) r)
    (Careful a iface) l := by
  have hcareful := h.trying.careful
  refine wp_bind.mpr (wp_look.mpr ⟨hcareful, wp_ite.mpr ⟨fun hstop => ?_, fun _ => ?_⟩⟩)
  · exact wp_pure.mpr ⟨hcareful, hcareful, Or.inl hstop⟩
  refine wp_bind.mpr (wp_adapterUp.mono (fun up t ht => ?_) fun _ ht => (h.grown ht).trying.careful)
  have hrest := h.grown ht.1
  have hcare := hrest.trying.careful
  refine wp_ite.mpr ⟨fun hup => ?_, fun _ => ?_⟩
  · obtain ⟨before, ready, rfl, -, hready⟩ := ht.2 hup
    refine wp_ite.mpr ⟨fun hskip => ?_, fun hlisten => ?_⟩
    · refine wp_pure.mpr ⟨hcare, hcare, Or.inr ?_⟩
      exact ⟨before, ready, [], by simp, hready, Or.inl ⟨hskip, rfl⟩⟩
    rw [Bool.not_eq_true] at hlisten
    refine wp_bind.mpr (wp_bind.mpr (wp_framesHeard.mono (fun heard u hu => ?_) fun u hu => ?_))
    · obtain ⟨x, rfl, rfl, -⟩ := hu
      have hlistened := hrest.trying.listen hrest.settled x
      refine wp_pure.mpr ⟨hlistened, wp_ite.mpr ⟨fun hhears => ?_, fun hdeaf => ?_⟩⟩
      · refine wp_pure.mpr ⟨hlistened, hlistened, Or.inr ⟨before, ready, _, rfl, hready, Or.inr
          ⟨hlisten, x, rfl, Or.inl fun hzero => hhears ?_⟩⟩⟩
        simp [hzero]
      · obtain ⟨n, hn, hzero⟩ := Option.map_eq_some_iff.mp (not_not.mp hdeaf)
        obtain rfl : n = 0 := by simpa using hzero
        obtain ⟨y, rfl, hy⟩ := Option.bind_eq_some_iff.mp hn
        refine wp_ite.mpr ⟨fun hmany => ?_, fun hleft => ?_⟩
        · refine wp_pure.mpr ⟨hlistened, hlistened, Or.inr ⟨before, ready, _, rfl, hready, Or.inr
            ⟨hlisten, some y, rfl, Or.inr ?_⟩⟩⟩
          exact hrest.trying.deaf.trans (le_antisymm hrest.trying.few hmany)
        · have hreload {seg : List Call} (hseg : Reload seg) :=
            hrest.reload (not_le.mp hleft) hlisten hy ⟨before, ready, rfl, hready⟩ hseg
          refine wp_bind.mpr (wp_recoverDeafRadio.mono (fun _ v hv => ?_) fun v hv => ?_)
          · obtain ⟨seg, hseg, hgrown, hset⟩ := hv
            have hnext := (Resting.mk (hreload hseg) hset).grown hgrown
            exact wp_pure.mpr ⟨hnext.trying.careful, hnext⟩
          · obtain ⟨seg, hseg, rfl | ⟨hgrown, hset⟩⟩ := hv
            · exact (hreload hseg).careful
            · exact ((Resting.mk (hreload hseg) hset).grown hgrown).trying.careful
    · rcases hu with rfl | ⟨x, rfl⟩
      · exact hcare
      · exact hrest.trying.listen hrest.settled x
  · have hwait := hrest.wait
    exact wp_bind.mpr (wp_act.mpr ⟨hcare, hwait.trying.careful, wp_pure.mpr
      ⟨hwait.trying.careful, hwait⟩⟩)

/-- Wherever it is killed, and whatever the machine does, the bring-up takes care; and when
it goes on, it has either been told not to configure, or brought the adapter up. -/
theorem wp_bringUp : (bringUp w a iface fuel).wp
    (fun r t => r = true → a.noConfigure = true ∧ t = [] ∨
      a.noConfigure = false ∧ BroughtUp a iface t) (Careful a iface) [] := by
  have hstart : Resting a iface (0, 0) [] := {
    trying := {
      guarded := guarded_nil
      unloads := le_rfl
      deaf := rfl
      few := Nat.zero_le _
      allowed := fun _ => rfl
      follows := List.isChain_nil
      waits := rfl }
    settled := settled_nil }
  refine wp_ite.mpr ⟨fun hskip => ?_, fun hconfigure => ?_⟩
  · exact wp_pure.mpr ⟨hstart.trying.careful, fun _ => Or.inl ⟨hskip, rfl⟩⟩
  rw [Bool.not_eq_true] at hconfigure
  refine wp_bind.mpr ((wp_loop (I := Resting a iface) (Q := fun _ t => Careful a iface t ∧
    (w.stopping t = true ∨ BroughtUp a iface t)) (fun _ _ h => h.trying.careful)
    (fun _ _ h => wp_configureRound h) (fun _ _ h => h.1) hstart).mono (fun _ t ht => ?_)
    fun _ h => h)
  refine wp_bind.mpr (wp_look.mpr ⟨ht.1, wp_pure.mpr ⟨ht.1, fun hgo => Or.inr ?_⟩⟩)
  refine ⟨hconfigure, ht.2.resolve_left fun hstop => ?_⟩
  rw [hstop] at hgo
  cases hgo

/-! ### The radio again -/

/-- Anything but a reload. -/
def Lenient (c : Call) : Prop := c.unloads = false

theorem calls_regain : (regain w iface fuel).Calls Lenient := by
  have hquiet {α : Type} {m : Sys α} (hm : m.Calls Call.Quiet) : m.Calls Lenient :=
    hm.mono fun _ hc => hc.unloads
  have hsleep : (do sleep 5; pure (.inl ()) : Sys (Unit ⊕ Bool)).Calls Lenient := by
    refine Calls.bind (fun l => ?_) fun _ => calls_pure _
    have hgrown : Grown Lenient l (l ++ [.sleep 5]) := grown_concat rfl
    exact wp_act.mpr ⟨Grown.refl _ l, hgrown, hgrown⟩
  refine Calls.loop (fun _ => ?_) fuel ()
  refine (calls_look _).bind fun stop => Calls.ite (calls_pure _) ?_
  have hup : (adapterUp w iface fuel).Calls Call.Quiet :=
    calls_daemonWait.bind fun _ => Calls.ite calls_verifyAndConfigure (calls_pure _)
  refine (hquiet hup).bind fun up => Calls.ite ?_ hsleep
  exact (hquiet (calls_link iface)).bind fun opened => Calls.ite (calls_pure _) hsleep

theorem wp_regain : (regain w iface fuel).wp
    (fun r t => r = true → ∃ before ready, t = before ++ ready ++ [.openLink iface true] ∧
      l <+: before ∧ Configured iface ready) (fun _ => True) l := by
  refine wp_loop (I := fun _ t => l <+: t) (fun _ _ _ => trivial) (fun _ t ht => ?_)
    (fun _ _ _ => trivial) (List.prefix_refl l)
  refine wp_bind.mpr (wp_look.mpr ⟨trivial, wp_ite.mpr ⟨fun _ => ?_, fun _ => ?_⟩⟩)
  · exact wp_pure.mpr ⟨trivial, fun h => absurd h (by decide)⟩
  refine wp_bind.mpr (wp_adapterUp.mono (fun up u hu => ?_) fun _ _ => trivial)
  have hlu : l <+: u := by
    obtain ⟨more, rfl, -⟩ := hu.1
    exact ht.trans (List.prefix_append t more)
  refine wp_ite.mpr ⟨fun hup => ?_, fun _ => ?_⟩
  · obtain ⟨before, ready, rfl, hbefore, hready⟩ := hu.2 hup
    refine wp_bind.mpr (wp_ask.mpr ⟨trivial, trivial, wp_ite.mpr ⟨fun hopen => ?_, fun _ => ?_⟩⟩)
    · refine wp_pure.mpr ⟨trivial, fun _ => ⟨before, ready, ?_, ht.trans hbefore, hready⟩⟩
      rw [hopen]
    · refine wp_bind.mpr (wp_act.mpr ⟨trivial, trivial, wp_pure.mpr ⟨trivial, ?_⟩⟩)
      exact (hlu.trans (List.prefix_append _ _)).trans (List.prefix_append _ _)
  · refine wp_bind.mpr (wp_act.mpr ⟨trivial, trivial, wp_pure.mpr ⟨trivial, ?_⟩⟩)
    exact hlu.trans (List.prefix_append _ _)

end Daemon

/-- Whatever the machine does, and wherever the daemon is killed on the way: the driver is
unloaded only under an adapter that has just passed every check, is in monitor mode and hears
nothing at all, at most twice, and never without the listening test; whenever the daemon does
anything after a deaf listening, that is to reload the driver, step by step; the waits
between two tries are 5, 10, 15 seconds and so on up to a minute. The daemon goes on
without a single call if it is told not to configure; otherwise only after the last check
is passed, and then with a radio that hears, one that cannot be tested, or one that is deaf
for the third time. -/
theorem bring_up_careful (w : World) (a : Args) (iface : Text) (fuel : ℕ) (kill : Option ℕ) :
    Daemon.Careful a iface ((Daemon.bringUp w a iface fuel).cut kill []).1 ∧
      (((Daemon.bringUp w a iface fuel).cut kill []).2 = some (.ok true) →
        a.noConfigure = true ∧ ((Daemon.bringUp w a iface fuel).cut kill []).1 = [] ∨
          a.noConfigure = false ∧
            Daemon.BroughtUp a iface ((Daemon.bringUp w a iface fuel).cut kill []).1) := by
  have hwp : (Daemon.bringUp w a iface fuel).wp
      (fun r t => r = true → a.noConfigure = true ∧ t = [] ∨
        a.noConfigure = false ∧ Daemon.BroughtUp a iface t) (Daemon.Careful a iface) [] :=
    Daemon.wp_bringUp
  exact ⟨hwp.cut kill, fun h => hwp.returned (Prod.ext rfl h) rfl⟩

/-- When the radio is lost later, the daemon never touches the driver; and it returns to the
node only with a link that it has opened on an adapter that has just passed every check. -/
theorem radio_regained (w : World) (iface : Text) (fuel : ℕ) (kill : Option ℕ) (l : List Call) :
    (((Daemon.regain w iface fuel).cut kill l).1.countP Call.unloads = l.countP Call.unloads) ∧
      (((Daemon.regain w iface fuel).cut kill l).2 = some (.ok true) →
        ∃ before ready, ((Daemon.regain w iface fuel).cut kill l).1 =
            before ++ ready ++ [.openLink iface true] ∧
          l <+: before ∧ Configured iface ready) := by
  constructor
  · have hcalls : (Daemon.regain w iface fuel).Calls Daemon.Lenient := Daemon.calls_regain
    exact ((hcalls l).cut kill).countP_eq fun _ hc => hc
  · exact fun h => Daemon.wp_regain.returned (Prod.ext rfl h) rfl

end Beachedmesh
