import Beachedmesh.Adapter

/-!
# The reset by hand

`beachedmesh-laptopreset` listens, and if nothing is heard stops the service, reloads the
driver, starts the service again and listens once more. Its exit status is the diagnosis;
what it may leave behind is a service that is stopped.
-/
namespace Beachedmesh
open PyText Script

namespace Reset

/-- What it reads of its command line. -/
structure Options where
  check : Bool
  seconds : ℚ

def unitPath : Text := "/etc/systemd/system/beachedmesh.service".toList

def stopCommand : List Text := [systemctl, "stop".toList, "beachedmesh".toList]

def startCommand : List Text := [systemctl, "start".toList, "beachedmesh".toList]

def serviceSettle : ℚ := 3

variable (w : World) (o : Options) (iface : Text) (fuel : ℕ)

def serviceInstalled : Sys Bool := do
  if ← w.tool systemctl then w.pathExists unitPath else return false

def stopService (had : Bool) : Sys Unit := do
  if had then w.perform stopCommand else return ()

def startService (had : Bool) : Sys Unit := do
  if had then
    w.perform startCommand
    sleep serviceSettle
  else return ()

/-- From the reset on, once nothing has been heard. -/
def reset : Sys ℕ := do
  let had ← serviceInstalled w
  stopService w had
  if ← reloadDriver w then
    if ← waitForIface w iface fuel then
      startService w had
      let after ← framesHeard w iface o.seconds
      return if after.getD 0 = 0 then 1 else 0
    else return 1
  else return 1

/-- The exit status; type and channel are only printed. -/
def main (isRoot : Bool) : Sys ℕ := do
  if isRoot = false then return 1
  else if (← w.tool "modprobe".toList) = false then return 1
  else if (← w.tool "iw".toList) = false then return 1
  else if (← w.pathExists (net iface)) = false then return 1
  else
    let _ ← ifaceInfo w iface
    match ← framesHeard w iface o.seconds with
    | none => return 1
    | some frames =>
      if 0 < frames then return 0
      else if o.check then return 1
      else reset w o iface fuel

/-! ### What the log of it looks like -/

def stops : Call → Bool
  | .run cmd _ => cmd = stopCommand
  | _ => false

def starts : Call → Bool
  | .run cmd _ => cmd = startCommand
  | _ => false

/-- A call that changes driver or service. -/
def touches (c : Call) : Bool := c.unloads || c.loads || c.service

/-- Nothing has been heard, and it may be acted on. -/
def Deaf (l : List Call) : Prop :=
  o.check = false ∧ ∃ x, .listen iface (some x) ∈ l ∧ x.frames o.seconds = some 0

/-- Driver and service are left alone unless nothing has been heard; one reload at most, and
one restart of the service. -/
structure Careful (l : List Call) : Prop where
  guarded : Guarded touches (Deaf o iface) l
  unloads : l.countP Call.unloads ≤ 1
  stops : l.countP Reset.stops ≤ 1
  starts : l.countP Reset.starts ≤ l.countP Reset.stops

/-- The last call is a listening that took a frame. -/
def Hears (l : List Call) : Prop :=
  ∃ iface x n, l.getLast? = some (.listen iface (some x)) ∧ x.frames o.seconds = some n ∧ 0 < n

/-- While the wait goes on: the time is not up, and the interface is not there. -/
def Waits (deadline : ℚ) : Call → Prop
  | .monotonic now => now < deadline
  | .present path is => path = net iface ∧ is = false
  | .sleep seconds => seconds = 1 / 2
  | _ => False

/-- The reload has just failed; or it went well, and the wait for the interface after it has
just run out. -/
inductive Failed : List Call → Prop
  | reload {before seg : List Call} (h : Reloaded false seg) : Failed (before ++ seg)
  | wait {before seg waited : List Call} {start now : ℚ} (h : Reloaded true seg)
      (hwaited : ∀ c ∈ waited, Waits iface (start + reappearTimeout) c)
      (hnow : start + reappearTimeout ≤ now) :
      Failed (before ++ seg ++ [.monotonic start] ++ waited ++ [.monotonic now])

/-- The status says whether anything is heard at the end, and the service is started again
unless the reload or the wait for the interface has just failed. -/
structure Outcome (code : ℕ) (l : List Call) : Prop where
  status : code = 0 ∧ Hears o l ∨ code = 1 ∧ ¬ Hears o l
  service : l.countP starts = l.countP stops ∨ Failed iface l

variable {w : World} {o : Options} {iface : Text} {fuel a b u : ℕ} {l t seg : List Call}
  {had : Bool}

/-! ### Counts -/

/-- So many stops and starts, and at most so many unloads. -/
structure Tally (o : Options) (iface : Text) (a b u : ℕ) (l : List Call) : Prop where
  guarded : Guarded touches (Deaf o iface) l
  stops : l.countP Reset.stops = a
  starts : l.countP Reset.starts = b
  unloads : l.countP Call.unloads ≤ u

theorem Tally.careful (h : Tally o iface a b u l) (ha : a ≤ 1) (hb : b ≤ a) (hu : u ≤ 1) :
    Careful o iface l where
  guarded := h.guarded
  unloads := h.unloads.trans hu
  stops := h.stops.trans_le ha
  starts := (h.starts.trans_le hb).trans_eq h.stops.symm

def Tame (c : Call) : Prop := touches c = false

theorem tame_of_quiet {c : Call} (h : c.Quiet) : Tame c := by
  rw [Tame, touches, h.unloads, h.loads, h.service]
  rfl

theorem unloads_of_tame {c : Call} (h : Tame c) : c.unloads = false :=
  (Bool.or_eq_false_iff.mp (Bool.or_eq_false_iff.mp h).1).1

theorem service_of_tame {c : Call} (h : Tame c) : c.service = false :=
  (Bool.or_eq_false_iff.mp h).2

theorem stops_of_service {c : Call} (h : c.service = false) : stops c = false := by
  cases c with
  | run cmd ran =>
    refine decide_eq_false fun heq => ?_
    subst heq
    cases h
  | _ => rfl

theorem starts_of_service {c : Call} (h : c.service = false) : starts c = false := by
  cases c with
  | run cmd ran =>
    refine decide_eq_false fun heq => ?_
    subst heq
    cases h
  | _ => rfl

theorem Tally.grown (h : Tally o iface a b u l) (hgrown : Grown Tame l t) :
    Tally o iface a b u t where
  guarded := h.guarded.grown hgrown fun _ hc => hc
  stops := (hgrown.countP_eq fun _ hc => stops_of_service (service_of_tame hc)).trans h.stops
  starts := (hgrown.countP_eq fun _ hc => starts_of_service (service_of_tame hc)).trans h.starts
  unloads := (hgrown.countP_eq fun _ => unloads_of_tame).trans_le h.unloads

theorem Deaf.grown (h : Deaf o iface l) {P : Call → Prop} (hgrown : Grown P l t) :
    Deaf o iface t := by
  obtain ⟨hcheck, x, hx, hframes⟩ := h
  obtain ⟨more, rfl, -⟩ := hgrown
  exact ⟨hcheck, x, List.mem_append_left _ hx, hframes⟩

theorem grown_tame (h : Grown Call.Quiet l t) : Grown Tame l t := h.mono fun _ => tame_of_quiet

/-! ### How the wait fails -/

theorem wp_waitForIface : (waitForIface w iface fuel).wp
    (fun r t => Grown Call.Quiet l t ∧ (r = false → ∃ start waited now,
      t = l ++ [.monotonic start] ++ waited ++ [.monotonic now] ∧
        (∀ c ∈ waited, Waits iface (start + reappearTimeout) c) ∧ start + reappearTimeout ≤ now))
    (Grown Call.Quiet l) l := by
  have hfails : (waitForIface w iface fuel).wp (fun r t => r = false → ∃ start waited now,
      t = l ++ [.monotonic start] ++ waited ++ [.monotonic now] ∧
        (∀ c ∈ waited, Waits iface (start + reappearTimeout) c) ∧ start + reappearTimeout ≤ now)
      (fun _ => True) l := by
    refine wp_bind.mpr (wp_ask.mpr ⟨trivial, trivial, ?_⟩)
    generalize w.monotonic l = start
    -- the log between two turns
    refine wp_loop (I := fun _ t => ∃ waited, t = l ++ [.monotonic start] ++ waited ∧
        ∀ c ∈ waited, Waits iface (start + reappearTimeout) c) (fun _ _ _ => trivial) ?_
      (fun _ _ _ => trivial) ⟨[], (List.append_nil _).symm, by simp⟩
    rintro _ t ⟨waited, rfl, hwaited⟩
    refine wp_bind.mpr (wp_ask.mpr ⟨trivial, trivial, ?_⟩)
    generalize w.monotonic (l ++ [.monotonic start] ++ waited) = now
    refine wp_ite.mpr ⟨fun hnow => ?_, fun hnow => ?_⟩
    · exact wp_pure.mpr ⟨trivial, fun _ => ⟨start, waited, now, rfl, hwaited, not_lt.mp hnow⟩⟩
    refine wp_bind.mpr (wp_ask.mpr ⟨trivial, trivial, wp_ite.mpr ⟨fun _ => ?_, fun his => ?_⟩⟩)
    · refine wp_bind.mpr (wp_act.mpr ⟨trivial, trivial, wp_pure.mpr ⟨trivial, fun h => ?_⟩⟩)
      cases h
    · refine wp_bind.mpr (wp_act.mpr ⟨trivial, trivial, wp_pure.mpr ⟨trivial, ?_⟩⟩)
      rw [Bool.not_eq_true] at his
      rw [his]
      refine ⟨waited ++ [.monotonic now, .present (net iface) false, .sleep (1 / 2)], by simp, ?_⟩
      refine List.forall_mem_append.mpr ⟨hwaited, ?_⟩
      simp [Waits, not_not.mp hnow]
  exact ((calls_waitForIface fuel l).and hfails).mono (fun _ _ h => h) fun _ h => h.1

/-! ### The reset -/

theorem count_other {cmd cmd' : List Text} (h : cmd ≠ cmd') (n : ℕ) :
    (n + if cmd = cmd' then 1 else 0) = n := by rw [if_neg h, Nat.add_zero]

/-- A command that touches something, with the reason for it. -/
theorem Tally.touch {a' b' u' : ℕ} (h : Tally o iface a b u l) (cmd : List Text)
    (hd : Deaf o iface l) (hstops : (a + if cmd = stopCommand then 1 else 0) = a')
    (hstarts : (b + if cmd = startCommand then 1 else 0) = b')
    (hunloads : (u + if cmd = unloadCommand then 1 else 0) = u') (ran : Option Ran) :
    Tally o iface a' b' u' (l ++ [.run cmd ran]) where
  guarded := guarded_concat.mpr ⟨h.guarded, fun _ => hd⟩
  stops := by
    rw [List.countP_append, List.countP_singleton, h.stops, ← hstops]
    simp [Reset.stops]
  starts := by
    rw [List.countP_append, List.countP_singleton, h.starts, ← hstarts]
    simp [Reset.starts]
  unloads := by
    have hu := h.unloads
    rw [List.countP_append, List.countP_singleton, ← hunloads]
    simpa [Call.unloads] using hu

theorem wp_serviceInstalled :
    (serviceInstalled w).wp (fun _ => Grown Tame l) (Grown Tame l) l := by
  have hcalls : (serviceInstalled w).Calls Call.Quiet :=
    (calls_tool (by decide)).bind fun _ => Calls.ite (calls_present _) (calls_pure _)
  exact hcalls.mono (fun _ => tame_of_quiet) l

theorem wp_stopService (h : Tally o iface 0 0 0 l) (hd : Deaf o iface l) :
    (stopService w had).wp (fun _ t => Tally o iface had.toNat 0 0 t ∧ Deaf o iface t)
      (Careful o iface) l := by
  have hl := h.careful (by decide) le_rfl (by decide)
  cases had with
  | false => exact wp_pure.mpr ⟨hl, h, hd⟩
  | true =>
    have hstop (ran : Option Ran) : Tally o iface 1 0 0 (l ++ [.run stopCommand ran]) :=
      h.touch stopCommand hd rfl (count_other (by decide) 0) (count_other (by decide) 0) ran
    have hcare (ran : Option Ran) := (hstop ran).careful le_rfl (by decide) (by decide)
    refine wp_bind.mpr (wp_bind.mpr (wp_ask.mpr ⟨hl, hcare _, wp_expect.mpr ⟨hcare _, ?_⟩⟩))
    exact fun _ _ => wp_pure.mpr ⟨hcare _, hstop _, hd.grown (grown_concat (P := fun _ => True)
      trivial)⟩

theorem wp_startService (h : Tally o iface had.toNat 0 1 l) (hd : Deaf o iface l) :
    (startService w had).wp (fun _ t => Tally o iface had.toNat had.toNat 1 t)
      (Careful o iface) l := by
  have hl := h.careful (Bool.toNat_le had) (Nat.zero_le _) le_rfl
  cases had with
  | false => exact wp_pure.mpr ⟨hl, h⟩
  | true =>
    have hstart (ran : Option Ran) : Tally o iface 1 1 1 (l ++ [.run startCommand ran]) :=
      h.touch startCommand hd (count_other (by decide) 1) rfl (count_other (by decide) 1) ran
    have hcare {t : List Call} (ht : Tally o iface 1 1 1 t) := ht.careful le_rfl le_rfl le_rfl
    refine wp_bind.mpr (wp_bind.mpr (wp_bind.mpr (wp_ask.mpr ⟨hl, hcare (hstart _),
      wp_expect.mpr ⟨hcare (hstart _), fun _ _ => wp_pure.mpr ⟨hcare (hstart _), ?_⟩⟩⟩)))
    have hsleep {t : List Call} : Grown Tame t (t ++ [.sleep serviceSettle]) := grown_concat rfl
    have hslept := (hstart (w.run l startCommand)).grown hsleep
    exact wp_act.mpr ⟨hcare (hstart _), hcare hslept, hslept⟩

/-- Unload and load stand where the radio was deaf. -/
theorem Tally.reload (h : Tally o iface a b 0 l) (hd : Deaf o iface l) (hseg : Reload seg) :
    Tally o iface a b 1 (l ++ seg) where
  guarded := h.guarded.append fun pre _ _ _ _ => hd.grown ⟨pre, rfl, fun _ _ => trivial⟩
  stops := by
    have hgrown : Grown (fun c => c.service = false) l (l ++ seg) :=
      ⟨seg, rfl, fun c hc => by simpa using List.countP_eq_zero.mp hseg.service c hc⟩
    exact (hgrown.countP_eq fun _ => stops_of_service).trans h.stops
  starts := by
    have hgrown : Grown (fun c => c.service = false) l (l ++ seg) :=
      ⟨seg, rfl, fun c hc => by simpa using List.countP_eq_zero.mp hseg.service c hc⟩
    exact (hgrown.countP_eq fun _ => starts_of_service).trans h.starts
  unloads := by
    rw [List.countP_append]
    exact Nat.add_le_add h.unloads hseg.unloads_le

theorem hears_concat {x : Option Listening} : Hears o (l ++ [.listen iface x]) ↔
    ∃ n, x.bind (·.frames o.seconds) = some n ∧ 0 < n := by
  constructor
  · rintro ⟨iface', y, n, hlast, hframes, hn⟩
    rw [List.getLast?_concat] at hlast
    cases Option.some.inj hlast
    exact ⟨n, hframes, hn⟩
  · rintro ⟨n, hx, hn⟩
    obtain ⟨y, rfl, hy⟩ := Option.bind_eq_some_iff.mp hx
    exact ⟨iface, y, n, List.getLast?_concat, hy, hn⟩

theorem not_hears_append {c : Call} (hlast : seg.getLast? = some c)
    (h : ∀ iface x, c ≠ .listen iface x) : ¬ Hears o (l ++ seg) := by
  rintro ⟨iface, x, n, hx, -⟩
  rw [List.getLast?_append, hlast] at hx
  exact h iface (some x) (Option.some.inj hx)

theorem not_hears_reloaded {ok : Bool} (h : Reloaded ok seg) : ¬ Hears o (l ++ seg) := by
  cases h with
  | missing => exact not_hears_append rfl fun _ _ heq => by cases heq
  | held h => exact not_hears_append rfl fun _ _ heq => by cases heq
  | loaded h => exact not_hears_append rfl fun _ _ heq => by cases heq

theorem Failed.not_hears (h : Failed iface l) : ¬ Hears o l := by
  cases h with
  | reload h => exact not_hears_reloaded h
  | wait h hwaited hnow => exact not_hears_append rfl fun _ _ heq => by cases heq

theorem Outcome.failed (h : Failed iface l) : Outcome o iface 1 l :=
  ⟨Or.inr ⟨rfl, h.not_hears⟩, Or.inr h⟩

theorem wp_reset (h : Tally o iface 0 0 0 l) (hd : Deaf o iface l) :
    (reset w o iface fuel).wp (fun code t => Careful o iface t ∧ Outcome o iface code t)
      (Careful o iface) l := by
  have hcare {l : List Call} (hl : Tally o iface 0 0 0 l) :=
    hl.careful (by decide) le_rfl (by decide)
  refine wp_bind.mpr (wp_serviceInstalled.mono (fun had t ht => ?_) fun t ht => hcare (h.grown ht))
  refine wp_bind.mpr ((wp_stopService (h.grown ht) (hd.grown ht)).mono (fun _ t ht => ?_)
    fun _ ht => ht)
  obtain ⟨htally, hdeaf⟩ := ht
  have hone {l : List Call} (hl : Tally o iface had.toNat 0 1 l) : Careful o iface l :=
    hl.careful (Bool.toNat_le had) (Nat.zero_le _) le_rfl
  refine wp_bind.mpr (wp_reloadDriver.mono (fun r t' ht' => ?_) ?_)
  swap
  · rintro t' ⟨seg, rfl, hseg⟩
    exact hone (htally.reload hdeaf hseg)
  obtain ⟨seg, rfl, hseg⟩ := ht'
  have htally' := htally.reload hdeaf hseg.reload
  have hdeaf' : Deaf o iface (t ++ seg) := hdeaf.grown ⟨seg, rfl, fun _ _ => trivial⟩
  refine wp_ite.mpr ⟨fun hr => ?_, fun hr => ?_⟩
  swap
  · rw [Bool.not_eq_true] at hr
    subst hr
    exact wp_pure.mpr ⟨hone htally', hone htally', Outcome.failed (.reload hseg)⟩
  subst hr
  refine wp_bind.mpr (wp_waitForIface.mono (fun r v hv => ?_)
    fun v hv => hone (htally'.grown (grown_tame hv)))
  have htally'' := htally'.grown (grown_tame hv.1)
  refine wp_ite.mpr ⟨fun _ => ?_, fun hr => ?_⟩
  swap
  · obtain ⟨start, waited, now, rfl, hwaited, hnow⟩ := hv.2 (Bool.not_eq_true _ |>.mp hr)
    exact wp_pure.mpr ⟨hone htally'', hone htally'',
      Outcome.failed (.wait hseg hwaited hnow)⟩
  refine wp_bind.mpr ((wp_startService htally'' (hdeaf'.grown hv.1)).mono
    (fun _ x hx => ?_) fun _ hx => hx)
  have hlisten (y : Option Listening) : Tally o iface had.toNat had.toNat 1
      (x ++ [.listen iface y]) := hx.grown (grown_concat rfl)
  have hboth {l : List Call} (hl : Tally o iface had.toNat had.toNat 1 l) : Careful o iface l :=
    hl.careful (Bool.toNat_le had) le_rfl le_rfl
  refine wp_bind.mpr (wp_framesHeard.mono (fun after z hz => ?_) fun z hz => ?_)
  · obtain ⟨y, rfl, rfl, -⟩ := hz
    refine wp_pure.mpr ⟨hboth (hlisten y), hboth (hlisten y), ?_, Or.inl ?_⟩
    · rw [hears_concat]
      cases y.bind (·.frames o.seconds) with
      | none => simp
      | some n => cases n <;> simp
    · exact (hlisten y).starts.trans (hlisten y).stops.symm
  · rcases hz with rfl | ⟨y, rfl⟩
    · exact hboth hx
    · exact hboth (hlisten y)

/-! ### The whole run -/

theorem Outcome.early (h : Tally o iface 0 0 0 l) (hno : ¬ Hears o l) : Outcome o iface 1 l :=
  ⟨Or.inr ⟨rfl, hno⟩, Or.inl (h.starts.trans h.stops.symm)⟩

theorem wp_main {isRoot : Bool} : (main w o iface fuel isRoot).wp
    (fun code t => Careful o iface t ∧ Outcome o iface code t) (Careful o iface) [] := by
  have hstart : Tally o iface 0 0 0 [] := ⟨guarded_nil, rfl, rfl, le_rfl⟩
  have hcare {t : List Call} (ht : Tally o iface 0 0 0 t) : Careful o iface t :=
    ht.careful (by decide) le_rfl (by decide)
  -- a question, and the end of the run where its answer is no
  have hask {t : List Call} {answer : List Call → Bool} {record : Bool → Call} {m : Sys ℕ}
      (ht : Tally o iface 0 0 0 t) (htame : ∀ is, Tame (record is))
      (hrecord : ∀ is iface x, record is ≠ .listen iface x)
      (hm : ∀ t, Tally o iface 0 0 0 t → m.wp
        (fun code t => Careful o iface t ∧ Outcome o iface code t) (Careful o iface) t) :
      (do if (← ask answer record) = false then return 1 else m : Sys ℕ).wp
        (fun code t => Careful o iface t ∧ Outcome o iface code t) (Careful o iface) t := by
    have hasked := ht.grown (grown_concat (htame (answer t)))
    refine wp_bind.mpr (wp_ask.mpr ⟨hcare ht, hcare hasked, wp_ite.mpr ⟨fun _ => ?_, fun _ => ?_⟩⟩)
    · have hno : ¬ Hears o (t ++ [record (answer t)]) := not_hears_append rfl (hrecord _)
      exact wp_pure.mpr ⟨hcare hasked, hcare hasked, .early hasked hno⟩
    · exact hm _ hasked
  refine wp_ite.mpr ⟨fun _ => ?_, fun _ => ?_⟩
  · refine wp_pure.mpr ⟨hcare hstart, hcare hstart, .early hstart ?_⟩
    rintro ⟨_, _, _, hlast, -⟩
    cases hlast
  refine hask hstart (fun _ => rfl) (fun _ _ _ h => by cases h) fun t ht => ?_
  refine hask ht (fun _ => rfl) (fun _ _ _ h => by cases h) fun t ht => ?_
  refine hask ht (fun _ => rfl) (fun _ _ _ h => by cases h) fun t ht => ?_
  refine wp_bind.mpr ((calls_ifaceInfo t).mono (fun info u hu => ?_)
    fun u hu => hcare (ht.grown (grown_tame hu)))
  have htu := ht.grown (grown_tame hu)
  have hlisten (x : Option Listening) : Tally o iface 0 0 0 (u ++ [.listen iface x]) :=
    htu.grown (grown_concat rfl)
  refine wp_bind.mpr (wp_framesHeard.mono (fun heard v hv => ?_) fun v hv => ?_)
  · obtain ⟨x, rfl, rfl, -⟩ := hv
    have hl := hlisten x
    cases hx : x.bind (·.frames o.seconds) with
    | none =>
      refine wp_pure.mpr ⟨hcare hl, hcare hl, .early hl ?_⟩
      simp [hears_concat, hx]
    | some n =>
      refine wp_ite.mpr ⟨fun hn => ?_, fun hn => wp_ite.mpr ⟨fun _ => ?_, fun hcheck => ?_⟩⟩
      · refine wp_pure.mpr ⟨hcare hl, hcare hl, Or.inl ⟨rfl, hears_concat.mpr ⟨n, hx, hn⟩⟩, ?_⟩
        exact Or.inl (hl.starts.trans hl.stops.symm)
      · refine wp_pure.mpr ⟨hcare hl, hcare hl, .early hl ?_⟩
        simpa [hears_concat, hx] using hn
      · obtain rfl : n = 0 := by omega
        obtain ⟨y, rfl, hy⟩ := Option.bind_eq_some_iff.mp hx
        refine wp_reset hl ⟨Bool.not_eq_true _ |>.mp hcheck, y, by simp, hy⟩
  · rcases hv with rfl | ⟨x, rfl⟩
    · exact hcare htu
    · exact hcare (hlisten x)

end Reset

/-- The reset by hand, whatever the machine answers and wherever it is killed: driver and service
are touched only after a listening that took no frame, and not at all with `--check`; there
is one reload at most; the exit status is 0 exactly if the last thing it did was to hear
a frame; and it leaves a service that it stopped without starting it again only if the
reload has just failed, or the interface was missing for the whole of the wait. -/
theorem reset_careful (w : World) (o : Reset.Options) (iface : Text) (fuel : ℕ) (isRoot : Bool)
    (kill : Option ℕ) :
    Reset.Careful o iface ((Reset.main w o iface fuel isRoot).cut kill []).1 ∧
      ∀ code, ((Reset.main w o iface fuel isRoot).cut kill []).2 = some (.ok code) →
        Reset.Outcome o iface code ((Reset.main w o iface fuel isRoot).cut kill []).1 := by
  have hwp : (Reset.main w o iface fuel isRoot).wp
      (fun code t => Reset.Careful o iface t ∧ Reset.Outcome o iface code t)
      (Reset.Careful o iface) [] := Reset.wp_main
  exact ⟨hwp.cut kill, fun code h => (hwp.returned (Prod.ext rfl h)).2⟩

end Beachedmesh
