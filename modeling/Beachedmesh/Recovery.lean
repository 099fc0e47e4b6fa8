import Beachedmesh.BringUp

/-!
# The adapter comes back

A machine that answers badly only so often: commands run, listenings end, nobody stops the
daemon, and after some number of bad answers the adapter is present, of the right kind
and in monitor mode whenever it is asked for. Then both loops around the adapter end.
-/
namespace Beachedmesh
open PyText Script

/-- What the machine returns to a call after that log. -/
def World.Answers (w : World) (l : List Call) : Call → Prop
  | .present path is => w.present l path = is
  | .realpath path target => w.realpath l path = target
  | .which tool found => w.which l tool = found
  | .run cmd ran => w.run l cmd = ran
  | .sleep _ => True
  | .monotonic now => w.monotonic l = now
  | .listen iface socket => w.listen l iface = socket
  | .openLink iface opened => w.openLink l iface = opened

/-- An answer that keeps the adapter from coming up. -/
def Call.bad (iface : Text) : Call → Bool
  | .present _ is => !is
  | .realpath _ dev => ¬ "usb".toList <:+: dev
  | .run cmd (some ran) =>
    (cmd = phyCommand && ¬ monitorMode <:+: ran.stdout) ||
      (cmd = infoCommand iface && (readInfo ran.stdout).map Prod.fst ≠ some monitorMode)
  | .openLink _ opened => !opened
  | _ => false

/-- An answer after which there is no result: an exception, or a listening without end. -/
def Call.breaks (iface : Text) : Call → Bool
  | .run _ none => true
  | .run cmd (some ran) => cmd = infoCommand iface && readInfo ran.stdout = none
  | .listen _ (some x) => x.frames listenSeconds = none
  | _ => false

/-- From the log on nothing breaks, nobody stops the daemon, and there are no more than so
many bad answers more. -/
structure World.Settles (w : World) (iface : Text) (M : ℕ) (l : List Call) : Prop where
  whole : ∀ t c, l <+: t → w.Answers t c → c.breaks iface = false
  few : ∀ t c, l <+: t → w.Answers t c → c.bad iface = true →
    t.countP (Call.bad iface) < l.countP (Call.bad iface) + M
  awake : ∀ t, l <+: t → w.stopping t = false

/-- How many bad answers are left of so many after the first log. -/
def badLeft (iface : Text) (M : ℕ) (l t : List Call) : ℕ :=
  l.countP (Call.bad iface) + M - t.countP (Call.bad iface)

variable {w : World} {iface : Text} {M fuel : ℕ} {l t u v : List Call} {c : Call} {α : Type}

theorem badLeft_le (h : t <+: u) : badLeft iface M l u ≤ badLeft iface M l t :=
  Nat.sub_le_sub_left h.sublist.countP_le _

theorem badLeft_le_budget (h : l <+: t) : badLeft iface M l t ≤ M := by
  have hcount : l.countP (Call.bad iface) ≤ t.countP (Call.bad iface) := h.sublist.countP_le
  simp only [badLeft]
  omega

namespace World.Settles

variable (h : w.Settles iface M l)
include h

/-- A bad answer is one of those that are left. -/
theorem spent (ht : l <+: t) (hc : w.Answers t c) (hbad : c.bad iface = true) :
    badLeft iface M l (t ++ [c]) < badLeft iface M l t := by
  have hfew := h.few t c ht hc hbad
  rw [badLeft, badLeft, List.countP_append, List.countP_singleton, if_pos hbad]
  omega

theorem after_ask {answer : List Call → α} {record : α → Call}
    {R : α → List Call → List Call → Prop} (hanswer : ∀ t, w.Answers t (record (answer t)))
    (hR : ∀ a t u, (record a).breaks iface = false →
      ((record a).bad iface = true → badLeft iface M l u < badLeft iface M l t) → R a t u) :
    After l (ask answer record : Sys α) R :=
  Script.after_ask fun t ht => hR _ _ _ (h.whole t _ ht (hanswer t)) (h.spent ht (hanswer t))

theorem after_command (cmd : List Text) : After l (w.command cmd) fun ran t u =>
    (Call.run cmd (some ran)).breaks iface = false ∧
      ((Call.run cmd (some ran)).bad iface = true → badLeft iface M l u < badLeft iface M l t) := by
  refine After.bind (R := fun ran t u => (Call.run cmd ran).breaks iface = false ∧
    ((Call.run cmd ran).bad iface = true → badLeft iface M l u < badLeft iface M l t))
    (h.after_ask (fun _ => rfl) fun _ _ _ hwhole hbad => ⟨hwhole, hbad⟩)
    fun answer t _ u _ hasked => ?_
  cases answer with
  | none => cases hasked.1
  | some ran => exact ends_pure ⟨List.prefix_refl u, hasked⟩

theorem after_perform (cmd : List Text) : After l (w.perform cmd) fun _ _ _ => True :=
  After.bind (h.after_command cmd) fun _ _ _ u _ _ => ends_pure ⟨List.prefix_refl u, trivial⟩

theorem after_ifaceInfo : After l (ifaceInfo w iface) fun info t u =>
    ¬ info.1 = monitorMode → badLeft iface M l u < badLeft iface M l t := by
  refine After.bind (h.after_command _) fun ran t ht u hu hasked => ?_
  cases hinfo : readInfo ran.stdout with
  | none =>
    have hwhole := hasked.1
    simp [Call.breaks, hinfo] at hwhole
  | some info =>
    refine ends_pure ⟨List.prefix_refl u, fun hmode => hasked.2 ?_⟩
    simp [Call.bad, hinfo, hmode]

end World.Settles

/-- The script ends from any log that continues `l`, and says no only at the price of a bad
answer. -/
def Tries (iface : Text) (M : ℕ) (l : List Call) (m : Sys Bool) : Prop :=
  After l m fun r t u => r = false → badLeft iface M l u < badLeft iface M l t

/-- After a first part whose answer is bad, unless `c` holds of it, the price is paid. -/
theorem Tries.bind {m : Sys α} {f : α → Sys Bool} {c : α → Prop}
    (hm : After l m fun a t u => ¬ c a → badLeft iface M l u < badLeft iface M l t)
    (hf : ∀ a, c a → Tries iface M l (f a))
    (hc : ∀ a, ¬ c a → After l (f a) fun _ _ _ => True) : Tries iface M l (m >>= f) := by
  refine After.bind hm fun a t ht u hu hpaid => ?_
  by_cases ha : c a
  · refine (hf a ha u (ht.trans hu)).mono fun b v hv => ⟨hv.1, fun hb => ?_⟩
    exact (hv.2 hb).trans_le (badLeft_le hu)
  · refine (hc a ha u (ht.trans hu)).mono fun b v hv => ⟨hv.1, fun _ => ?_⟩
    exact (badLeft_le hv.1).trans_lt (hpaid ha)

/-- A part that may say anything. -/
theorem Tries.after {m : Sys α} {f : α → Sys Bool} {R : α → List Call → List Call → Prop}
    (hm : After l m R) (hf : ∀ a, Tries iface M l (f a)) : Tries iface M l (m >>= f) :=
  Tries.bind (c := fun _ => True) (hm.mono fun _ _ _ _ _ _ h => absurd trivial h)
    (fun a _ => hf a) fun _ h => absurd trivial h

theorem tries_true : Tries iface M l (pure true) := after_pure fun _ _ h => by cases h

theorem after_any (b : Bool) : After l (pure b : Sys Bool) fun _ _ _ => True :=
  after_pure fun _ _ => trivial

/-- One after the other, as `and` has it. -/
theorem Tries.and {m m' : Sys Bool} (h : Tries iface M l m) (h' : Tries iface M l m') :
    Tries iface M l (do if ← m then m' else return false) := by
  refine Tries.bind (c := (· = true)) (h.mono fun r t u _ _ hr hne => hr ?_) (fun r hr => ?_)
    fun r hr => ?_
  · exact Bool.not_eq_true _ |>.mp hne
  · rwa [if_pos hr]
  · rw [if_neg hr]
    exact after_any false

section

variable (h : w.Settles iface M l)
include h

theorem tries_present (path : Text) : Tries iface M l (w.pathExists path) :=
  h.after_ask (fun _ => rfl) fun is _ _ _ hbad his => hbad (by simp [Call.bad, his])

theorem tries_link : Tries iface M l (w.link iface) :=
  h.after_ask (fun _ => rfl) fun o _ _ _ hbad ho => hbad (by simp [Call.bad, ho])

theorem tries_verify : Tries iface M l (verify w iface) := by
  -- a check that is not passed
  have hcheck (path : Text) {m : Sys Bool} (hm : Tries iface M l m) : Tries iface M l
      (do if (← w.pathExists path) = false then return false else m) := by
    refine Tries.bind (c := (· = true)) ((tries_present h path).mono
      fun r t u _ _ hr hne => hr (Bool.not_eq_true _ |>.mp hne)) (fun r hr => ?_) fun r hr => ?_
    · rwa [if_neg (by simp [hr])]
    · rw [if_pos (Bool.not_eq_true _ |>.mp hr)]
      exact after_any false
  refine hcheck _ (hcheck _ ?_)
  refine Tries.bind (c := fun dev => "usb".toList <:+: dev) (h.after_ask (fun _ => rfl)
    fun dev t u _ hbad husb => hbad (by simpa [Call.bad] using husb)) (fun dev hdev => ?_)
    fun dev hdev => ?_
  · rw [if_neg (not_not.mpr hdev)]
    refine After.bind (h.after_command phyCommand) fun ran t ht u hu hasked => ?_
    refine ends_pure ⟨List.prefix_refl u, fun hno => hasked.2 ?_⟩
    simp [Call.bad, of_decide_eq_false hno]
  · rw [if_pos hdev]
    exact after_any false

theorem tries_setMonitor : Tries iface M l (setMonitor w iface) := by
  refine Tries.bind (c := fun info => info.1 = monitorMode) h.after_ifaceInfo (fun info hi => ?_)
    fun info hi => ?_
  · rw [if_pos hi]
    exact tries_true
  · rw [if_neg hi]
    refine After.bind (h.after_perform _) fun _ t ht u hu _ => ?_
    refine Ends.bind ((h.after_command _ u (ht.trans hu)).mono fun r v hv => ?_)
    have hlv := (ht.trans hu).trans hv.1
    split_ifs
    · exact ends_pure ⟨hv.1, trivial⟩
    · refine Ends.bind ((h.after_command _ v hlv).mono fun r' x hx => ?_)
      exact ends_pure ⟨hv.1.trans hx.1, trivial⟩

theorem tries_tune : Tries iface M l (tune w iface) := by
  refine Tries.after (h.after_perform _) fun _ => ?_
  refine Tries.bind (c := fun info => info.1 = monitorMode) h.after_ifaceInfo (fun info hi => ?_)
    fun info hi => ?_
  · rw [if_neg (not_not.mpr hi)]
    exact Tries.after (h.after_perform _) fun _ => tries_true
  · rw [if_pos hi]
    exact after_any false

theorem after_releaseIface : After l (releaseIface w iface) fun _ _ _ => True := by
  refine After.bind (h.after_command _) fun nmcli t ht u hu _ => ?_
  have hpkill := h.after_perform ["pkill".toList, "-f".toList, "wpa_supplicant.*".toList ++ iface]
  dsimp only
  split_ifs
  · refine Ends.bind ((h.after_perform _ u (ht.trans hu)).mono fun _ v hv => ?_)
    exact (hpkill v ((ht.trans hu).trans hv.1)).mono fun _ x hx => ⟨hv.1.trans hx.1, trivial⟩
  · exact hpkill u (ht.trans hu)

theorem tries_verifyAndConfigure : Tries iface M l (verifyAndConfigure w iface) :=
  (tries_verify h).and
    (Tries.after (after_releaseIface h) fun _ => (tries_setMonitor h).and (tries_tune h))

omit h in
theorem after_sleep (seconds : ℚ) : After l (sleep seconds) fun _ _ _ => True :=
  after_write fun _ _ => trivial

theorem after_framesHeard :
    After l (framesHeard w iface listenSeconds) fun _ _ _ => True := by
  refine After.bind (R := fun x t u => (Call.listen iface x).breaks iface = false)
    (h.after_ask (fun _ => rfl) fun _ _ _ hwhole _ => hwhole) fun x t _ u _ hwhole => ?_
  cases x with
  | none => exact ends_pure ⟨List.prefix_refl u, trivial⟩
  | some x =>
    cases hframes : x.frames listenSeconds with
    | none => simp [Call.breaks, hframes] at hwhole
    | some n =>
      dsimp only
      rw [hframes]
      exact ends_pure ⟨List.prefix_refl u, trivial⟩

theorem after_reloadDriver : After l (reloadDriver w) fun _ _ _ => True := by
  refine After.bind (R := fun _ _ _ => True)
    (h.after_ask (fun _ => rfl) fun _ _ _ _ _ => trivial) fun found t ht u hu _ => ?_
  split_ifs
  · exact ends_pure ⟨List.prefix_refl u, trivial⟩
  refine Ends.bind ((h.after_command _ u (ht.trans hu)).mono fun r v hv => ?_)
  have hlv := (ht.trans hu).trans hv.1
  split_ifs
  · exact ends_pure ⟨hv.1, trivial⟩
  refine Ends.bind ((after_sleep _ v hlv).mono fun _ x hx => ?_)
  refine Ends.bind ((h.after_command _ x (hlv.trans hx.1)).mono fun r' y hy => ?_)
  exact ends_pure ⟨(hv.1.trans hx.1).trans hy.1, trivial⟩

/-- The interface stays away for as long as there are bad answers left, at most. -/
theorem after_waitForIface (hfuel : M < fuel) :
    After l (waitForIface w iface fuel) fun _ _ _ => True := by
  refine After.bind (R := fun _ _ _ => True)
    (h.after_ask (fun _ => rfl) fun _ _ _ _ _ => trivial) fun start t ht u hu _ => ?_
  refine ends_loop (I := fun _ v => u <+: v) (v := fun _ v => badLeft iface M l v)
    (fun _ v hv => ?_) (List.prefix_refl u) ((badLeft_le_budget (ht.trans hu)).trans_lt hfuel)
  have hlv := (ht.trans hu).trans hv
  have hclock : After l w.clock fun _ _ _ => True :=
    h.after_ask (fun _ => rfl) fun _ _ _ _ _ => trivial
  refine Ends.bind ((hclock v hlv).mono fun now x hx => ?_)
  split_ifs
  · have hlx := hlv.trans hx.1
    refine Ends.bind ((tries_present h _ x hlx).mono fun is y hy => ?_)
    split_ifs with his
    · refine Ends.bind ((after_sleep _ y (hlx.trans hy.1)).mono fun _ z hz => ?_)
      exact ends_pure ⟨((hv.trans hx.1).trans hy.1).trans hz.1, trivial⟩
    · refine Ends.bind ((after_sleep _ y (hlx.trans hy.1)).mono fun _ z hz => ?_)
      refine ends_pure ⟨((hv.trans hx.1).trans hy.1).trans hz.1, ?_⟩
      have hpaid := hy.2 (Bool.not_eq_true _ |>.mp his)
      exact (badLeft_le hz.1).trans_lt (hpaid.trans_le (badLeft_le hx.1))
  · exact ends_pure ⟨hv.trans hx.1, trivial⟩

namespace Daemon

theorem after_daemonWait (hfuel : M < fuel) :
    After l (Daemon.waitForIface w iface fuel) fun r _ _ => r = true := by
  refine After.bind (tries_present h _) fun is t ht u hu _ => ?_
  split_ifs
  · exact ends_pure ⟨List.prefix_refl u, rfl⟩
  refine ends_loop (I := fun _ v => u <+: v) (v := fun _ v => badLeft iface M l v)
    (fun _ v hv => ?_) (List.prefix_refl u) ((badLeft_le_budget (ht.trans hu)).trans_lt hfuel)
  have hlv := (ht.trans hu).trans hv
  refine Ends.bind (ends_look ?_)
  rw [h.awake v hlv, if_neg (by decide)]
  refine Ends.bind ((after_sleep _ v hlv).mono fun _ x hx => ?_)
  have hlx := hlv.trans hx.1
  refine Ends.bind ((tries_present h _ x hlx).mono fun is' y hy => ?_)
  split_ifs with his
  · refine Ends.bind ((after_sleep _ y (hlx.trans hy.1)).mono fun _ z hz => ?_)
    exact ends_pure ⟨((hv.trans hx.1).trans hy.1).trans hz.1, rfl⟩
  · refine ends_pure ⟨(hv.trans hx.1).trans hy.1, ?_⟩
    exact (hy.2 (Bool.not_eq_true _ |>.mp his)).trans_le (badLeft_le hx.1)

theorem tries_adapterUp (hfuel : M < fuel) : Tries iface M l (adapterUp w iface fuel) := by
  refine Tries.and ?_ (tries_verifyAndConfigure h)
  exact (after_daemonWait h hfuel).mono fun r t u _ _ hr hno =>
    absurd (hr.symm.trans hno) (by decide)

theorem after_radioHears : After l (radioHears w iface) fun _ _ _ => True :=
  After.bind (after_framesHeard h) fun _ _ _ u _ _ => ends_pure ⟨List.prefix_refl u, trivial⟩

theorem after_recoverDeafRadio (hfuel : M < fuel) :
    After l (recoverDeafRadio w iface fuel) fun _ _ _ => True := by
  refine After.bind (after_reloadDriver h) fun r t ht u hu _ => ?_
  split_ifs
  · exact after_waitForIface h hfuel u (ht.trans hu)
  · exact ends_pure ⟨List.prefix_refl u, trivial⟩

/-- How many rounds are left: one for each bad answer, and one for each reload. -/
def roundsLeft (iface : Text) (M : ℕ) (l : List Call) (b : ℕ × ℕ) (t : List Call) : ℕ :=
  badLeft iface M l t + (maxDeafReloads - b.2)

theorem ends_configureRound {a : Args} (hfuel : M < fuel) {b : ℕ × ℕ} (ht : l <+: t) :
    (configureRound w a iface fuel b).Ends
      (fun r u => Sum.elim
        (fun b' => l <+: u ∧ roundsLeft iface M l b' u < roundsLeft iface M l b t)
        (fun _ => l <+: u) r) t := by
  refine Ends.bind (ends_look ?_)
  rw [h.awake t ht, if_neg (by decide)]
  refine Ends.bind ((tries_adapterUp h hfuel t ht).mono fun up u hu => ?_)
  have hlu := ht.trans hu.1
  by_cases hup : up = true
  · rw [if_pos hup]
    by_cases hskip : a.noListenCheck = true
    · rw [if_pos hskip]
      exact ends_pure hlu
    rw [if_neg hskip]
    refine Ends.bind ((after_radioHears h u hlu).mono fun heard v hv => ?_)
    have hlv := hlu.trans hv.1
    split_ifs with hhears hmany
    · exact ends_pure hlv
    · exact ends_pure hlv
    · refine Ends.bind ((after_recoverDeafRadio h hfuel v hlv).mono fun _ x hx => ?_)
      refine ends_pure ⟨hlv.trans hx.1, ?_⟩
      have hle : badLeft iface M l x ≤ badLeft iface M l t :=
        badLeft_le ((hu.1.trans hv.1).trans hx.1)
      simp only [roundsLeft]
      omega
  · rw [if_neg hup]
    refine Ends.bind ((after_sleep _ u hlu).mono fun _ v hv => ?_)
    refine ends_pure ⟨hlu.trans hv.1, ?_⟩
    have hpaid := hu.2 (Bool.not_eq_true _ |>.mp hup)
    have hle : badLeft iface M l v ≤ badLeft iface M l u := badLeft_le hv.1
    simp only [roundsLeft]
    omega

theorem ends_configure {a : Args} (hfuel : M + maxDeafReloads < fuel) (b : ℕ × ℕ) :
    (configure w a iface fuel b).Ends (fun r _ => r = true) l := by
  have hrounds : roundsLeft iface M l b l < fuel := by
    have hle : badLeft iface M l l ≤ M := badLeft_le_budget (List.prefix_refl l)
    simp only [roundsLeft]
    omega
  refine Ends.bind ((ends_loop (I := fun _ t => l <+: t) (Q := fun _ t => l <+: t)
    (v := fun b t => roundsLeft iface M l b t) (fun b t ht => ?_) (List.prefix_refl l) hrounds).mono
      fun _ t ht => ?_)
  · exact ends_configureRound h (by omega) ht
  · refine Ends.bind (ends_look ?_)
    rw [h.awake t ht]
    exact ends_pure rfl

theorem ends_regain (hfuel : M < fuel) :
    (regain w iface fuel).Ends (fun r _ => r = true) l := by
  have hleft : badLeft iface M l l < fuel :=
    (badLeft_le_budget (List.prefix_refl l)).trans_lt hfuel
  refine ends_loop (I := fun _ t => l <+: t) (v := fun _ t => badLeft iface M l t)
    (fun _ t ht => ?_) (List.prefix_refl l) hleft
  refine Ends.bind (ends_look ?_)
  rw [h.awake t ht, if_neg (by decide)]
  -- a round that fails has paid for it before it sleeps
  have hagain {u : List Call} (hu : t <+: u) (hpaid : badLeft iface M l u < badLeft iface M l t) :
      (do sleep 5; pure (.inl ()) : Sys (Unit ⊕ Bool)).Ends (fun r v => Sum.elim
        (fun _ => l <+: v ∧ badLeft iface M l v < badLeft iface M l t) (· = true) r) u := by
    refine Ends.bind ((after_sleep _ u (ht.trans hu)).mono fun _ v hv => ?_)
    exact ends_pure ⟨(ht.trans hu).trans hv.1, (badLeft_le hv.1).trans_lt hpaid⟩
  refine Ends.bind ((tries_adapterUp h hfuel t ht).mono fun up u hu => ?_)
  split_ifs with hup
  · refine Ends.bind ((tries_link h u (ht.trans hu.1)).mono fun opened v hv => ?_)
    split_ifs with hopen
    · exact ends_pure rfl
    · have hpaid := hv.2 (Bool.not_eq_true _ |>.mp hopen)
      exact hagain (hu.1.trans hv.1) (hpaid.trans_le (badLeft_le hu.1))
  · exact hagain hu.1 (hu.2 (Bool.not_eq_true _ |>.mp hup))

end Daemon

end

/-- However long the adapter was away or unfit, and whatever was tried before: once the machine
has no more than `M` bad answers left, the bring-up ends within `M + 3` rounds with the
daemon going on, and a lost radio is regained with a link that has just been opened on an
adapter that has just passed every check. -/
theorem adapter_comes_back {w : World} {iface : Text} {M : ℕ} {l : List Call}
    (h : w.Settles iface M l) (a : Args) (b : ℕ × ℕ) :
    (∃ t, (Daemon.configure w a iface (M + 3) b).Returns l true t) ∧
      ∃ before ready, l <+: before ∧ Configured iface ready ∧
        (Daemon.regain w iface (M + 3)).Returns l true
          (before ++ ready ++ [.openLink iface true]) := by
  constructor
  · have hends : (Daemon.configure w a iface (M + 3) b).Ends (fun r _ => r = true) l :=
      Daemon.ends_configure h (Nat.lt_succ_self _) b
    obtain ⟨r, t, hreturns, rfl⟩ := hends
    exact ⟨t, hreturns⟩
  · obtain ⟨r, t, hreturns, rfl⟩ := Daemon.ends_regain h (by omega : M < M + 3)
    obtain ⟨before, ready, rfl, hbefore, hready⟩ := Daemon.wp_regain.returned hreturns.cut rfl
    exact ⟨before, ready, hbefore, hready, hreturns⟩

/-- What every command prints on the machine below. -/
def lateRan : Ran := ⟨0, "type monitor\n".toList, []⟩

/-- A machine on which the interface is missing once. -/
def lateWorld : World where
  present l _ := !l.isEmpty
  realpath _ _ := "/sys/devices/usb1".toList
  which _ _ := true
  run _ _ := some lateRan
  monotonic _ := 0
  listen _ _ := none
  openLink _ _ := true
  stopping _ := false

theorem lateWorld_settles : lateWorld.Settles "wlan1".toList 1 [] where
  whole t c _ hc := by
    cases c with
    | run cmd ran =>
      obtain rfl := hc
      have hinfo : decide (readInfo lateRan.stdout = none) = false := by decide +kernel
      exact Bool.and_eq_false_imp.mpr fun _ => hinfo
    | listen iface x =>
      obtain rfl := hc
      rfl
    | _ => rfl
  few t c _ hc hbad := by
    cases c with
    | present path is =>
      obtain rfl := hc
      cases t with
      | nil => decide
      | cons d t => cases hbad
    | realpath path dev =>
      obtain rfl := hc
      have husb : "usb".toList <:+: "/sys/devices/usb1".toList := by decide +kernel
      exact absurd husb (of_decide_eq_true hbad)
    | run cmd ran =>
      obtain rfl := hc
      have hphy : monitorMode <:+: lateRan.stdout := by decide +kernel
      have hmode : (readInfo lateRan.stdout).map Prod.fst = some monitorMode := by decide +kernel
      rcases Bool.or_eq_true_iff.mp hbad with hbad | hbad
      · exact absurd hphy (of_decide_eq_true (Bool.and_eq_true_iff.mp hbad).2)
      · exact absurd hmode (of_decide_eq_true (Bool.and_eq_true_iff.mp hbad).2)
    | openLink iface opened =>
      obtain rfl := hc
      cases hbad
    | _ => cases hbad
  awake _ _ := rfl

theorem adapter_comes_back_late :
    (∃ t, (Daemon.configure lateWorld Args.defaults "wlan1".toList 4 (0, 0)).Returns [] true t) ∧
      ∃ before ready, [] <+: before ∧ Configured "wlan1".toList ready ∧
        (Daemon.regain lateWorld "wlan1".toList 4).Returns [] true
          (before ++ ready ++ [.openLink "wlan1".toList true]) :=
  adapter_comes_back lateWorld_settles Args.defaults (0, 0)

end Beachedmesh
