import Beachedmesh.Address

/-!
# What the service runs

The unit file that setup writes names the interface, the node's name and the interval, and
never the key. So the daemon that `systemd` starts has the identity in the default key file,
whichever file setup was given.
-/
namespace Beachedmesh
open PyText Words Doubles Script Machine

variable {lib : KeyLibrary} {lower : Text → Text} {repo : Text} {known : Text → Prop}
  {start : Text → Option (List Text)} {iface name : Text} {x : ℚ} {L : Layout}

/-! ### The line for any name -/

/-- The words after the program, the name left out where there is none. -/
def unitWords (iface name : Text) (x : ℚ) : List Text :=
  if name = [] then "-i".toList :: iface :: wholeSeconds x else argWords iface name x

/-- What setup may be given: words that arrive as they stand, and a positive interval. -/
structure Asked (known : Text → Prop) (iface name : Text) (x : ℚ) : Prop where
  iface : Survives known iface ∧ Literal iface
  name : name = [] ∨ Survives known name ∧ Literal name
  pos : 0 < x
  double : IsDouble x

theorem installService_unitWords (h : Asked known iface name x) (repo : Text) :
    installService repo iface name (.finite x) =
      some (unit (program repo ++ spaced (unitWords iface name x)) repo) := by
  unfold unitWords
  split_ifs with hname
  · subst hname
    rw [installService, command, intervalArgs_finite h.pos, if_neg (by simp)]
    exact congrArg (fun t => some (unit t repo)) (intercalate_cons_eq_spaced _ _)
  · exact installService_finite h.pos repo iface hname

theorem literal_of_all {t : Text} (h : t.all fun c => c ≠ '%' ∧ c ≠ '$' ∧ c ≠ ';') :
    Literal t := by
  have hall : ∀ c ∈ t, c ≠ '%' ∧ c ≠ '$' ∧ c ≠ ';' := by simpa using h
  refine ⟨fun hc => (hall _ hc).1 rfl, fun hc => (hall _ hc).2.1 rfl, ?_, ?_⟩
  · rintro rfl
    exact (hall ';' (by simp)).2.2 rfl
  · rintro rfl
    exact (hall ';' (by simp)).2.2 rfl

theorem literal_str (n : ℕ) : Literal (str n) := by
  refine literal_of_all (List.all_eq_true.mpr fun c hc => ?_)
  have hdigit := isDigit_of_mem_str hc
  simp only [decide_eq_true_eq]
  refine ⟨?_, ?_, ?_⟩
  all_goals
    rintro rfl
    cases hdigit

theorem literal_wholeSeconds (x : ℚ) : ∀ w ∈ wholeSeconds x, Literal w := by
  unfold wholeSeconds
  split_ifs
  · simp
  · simp only [List.forall_mem_cons]
    exact ⟨literal_of_all (by decide +kernel), literal_str _, by simp⟩

/-- Each of the words stands, and is passed on as it is. -/
theorem forall_mem_unitWords (h : Asked known iface name x) :
    ∀ w ∈ unitWords iface name x, (w ≠ [] ∧ Stands known w) ∧ Literal w := by
  have hiFlag : ("-i".toList ≠ [] ∧ Stands known "-i".toList) ∧ Literal "-i".toList :=
    ⟨⟨plain_ifaceFlag.1, plain_ifaceFlag.2.stands⟩, literal_of_all (by decide +kernel)⟩
  have hnameFlag : ("--name".toList ≠ [] ∧ Stands known "--name".toList) ∧
      Literal "--name".toList :=
    ⟨⟨plain_nameFlag.1, plain_nameFlag.2.stands⟩, literal_of_all (by decide +kernel)⟩
  have hiface : (iface ≠ [] ∧ Stands known iface) ∧ Literal iface :=
    ⟨⟨h.iface.1.ne_nil, h.iface.1.stands⟩, h.iface.2⟩
  have hseconds : ∀ w ∈ wholeSeconds x, (w ≠ [] ∧ Stands known w) ∧ Literal w := fun w hw =>
    ⟨⟨(plain_wholeSeconds x w hw).1, (plain_wholeSeconds x w hw).2.stands⟩,
      literal_wholeSeconds x w hw⟩
  unfold unitWords
  split_ifs with hname
  · simp only [List.forall_mem_cons]
    exact ⟨hiFlag, hiface, hseconds⟩
  · obtain ⟨hs, hliteral⟩ := h.name.resolve_left hname
    simp only [argWords, List.forall_mem_cons]
    exact ⟨hiFlag, hiface, hnameFlag, ⟨⟨hs.ne_nil, hs.stands⟩, hliteral⟩, hseconds⟩

theorem parseArgs_unitWords (h : Asked known iface name x) :
    parseArgs (unitWords iface name x) = some (Args.asked iface name ⌊x⌋) := by
  have hiface := h.iface.1.argument
  unfold unitWords
  split_ifs with hname
  · subst hname
    rw [parseArgs, ArgParse.Options.parse, List.foldlM_cons, step_iface, Option.bind_eq_bind,
      Option.bind_some, List.foldlM_cons, step_argument hiface, storeIface, Option.map_some,
      Option.bind_eq_bind, Option.bind_some]
    have hseconds := foldlM_wholeSeconds h.pos h.double iface []
    rw [show (({ Args.defaults with iface := some iface } : Args), none) =
      (Args.asked iface [] announceInterval, (none : Option (Text → Args → Option Args))) from rfl,
      hseconds]
    rfl
  · exact (parse_command_iff h.pos h.double).mpr
      ⟨hiface, (h.name.resolve_left hname).1.argument, rfl⟩

/-- A unit file written by setup starts the daemon with the default key. -/
theorem unitArgs_installService (hs : Starter known start) (hrepo : Executable (program repo))
    (h : Asked known iface name x) {text : Text}
    (htext : installService repo iface name (.finite x) = some text) :
    unitArgs repo start (some text) = some (Args.asked iface name ⌊x⌋) := by
  obtain ⟨split, hsplit, hstart⟩ := hs.start
  rw [installService_unitWords h] at htext
  obtain rfl := Option.some.inj htext
  have hwords := forall_mem_unitWords h
  have hstands : Stands known (program repo) := hrepo.plain.stands
  have hline := hstart (split_program hsplit hstands fun w hw => (hwords w hw).1) hrepo
    fun w hw => (hwords w hw).2
  rw [unitArgs, Option.bind_some, execStartLine_of_stands hstands fun w hw => (hwords w hw).1.2,
    Option.bind_some, hline]
  simp only [if_true]
  exact parseArgs_unitWords h

theorem unitArgs_nil : unitArgs repo start (some []) = none := by
  have hline : execStartLine [] = none := by
    rw [execStartLine]
    rfl
  rw [unitArgs, Option.bind_some, hline]
  rfl

/-- The daemon that a unit file starts uses the default files. -/
theorem respects_asked (L : Layout) (iface name : Text) (x : ℚ) :
    (Args.asked iface name x).Respects L where
  normal := respects_defaults.normal
  key := L.key
  socket := L.socket
  database := Or.inr ⟨show Normal Args.defaults.db by decide +kernel, L.database⟩

/-! ### The names of the adapters -/

theorem survives_adapterName (n : ℕ) :
    Survives known (adapterName n) ∧ Literal (adapterName n) := by
  have hmem : ∀ c ∈ adapterName n, c ∈ ['B', 'C', 'H', 'D'] ∨ c.isDigit = true := by
    intro c hc
    rw [adapterName, ifacePrefix, List.mem_append] at hc
    refine hc.imp (fun hc => ?_) isDigit_of_mem_str
    simpa using hc
  have hplain : Plain (adapterName n) := by
    intro c hc
    rcases hmem c hc with hc | hc
    · fin_cases hc <;> rfl
    · exact isPlain_of_isDigit hc
  refine ⟨(survives_iff hplain).mpr ⟨(isName_adapterName n).ne_nil, Or.inl ?_⟩,
    literal_of_all (List.all_eq_true.mpr fun c hc => ?_)⟩
  · simp [adapterName, ifacePrefix]
  · rcases hmem c hc with hc | hc
    · fin_cases hc <;> rfl
    · simp only [decide_eq_true_eq]
      refine ⟨?_, ?_, ?_⟩
      all_goals
        rintro rfl
        cases hc

/-! ### What is installed -/

/-- The unit file is absent, cut short, or one that setup writes, and the rules can be
read. -/
structure Installed (known : Text → Prop) (lower : Text → Text) (repo : Text) (w : Host) :
    Prop where
  unitFile : ∀ text, w.unitFile = some text → text = [] ∨ ∃ iface name x,
    Asked known iface name x ∧ installService repo iface name (.finite x) = some text
  rules : ∃ claimed, readRules lower w.rules = some claimed ∧ Sound lower claimed

/-- Nothing else matters to it. -/
theorem Installed.of_eq {w t : Host} (h : Installed known lower repo w)
    (hunit : t.unitFile = w.unitFile) (hrules : t.rules = w.rules) :
    Installed known lower repo t :=
  ⟨hunit ▸ h.unitFile, hrules ▸ h.rules⟩

theorem Installed.putRules {w : Host} (h : Installed known lower repo w) {file : Option Text}
    (hfile : ∃ claimed, readRules lower file = some claimed ∧ Sound lower claimed) :
    Installed known lower repo (w.putRules file) :=
  ⟨h.unitFile, hfile⟩

theorem installed_kept : Host.Kept (Installed known lower repo) where
  say _ _ h := h.of_eq rfl rfl
  unlink := by
    intro p w h
    constructor
    · intro text htext
      by_cases hp : p = unitPath
      · rw [show (w.unlink p).unitFile = none from if_pos hp] at htext
        cases htext
      · exact h.unitFile text ((if_neg hp : (w.unlink p).unitFile = w.unitFile) ▸ htext)
    · by_cases hp : p = rulesPath
      · rw [show (w.unlink p).rules = none from if_pos hp]
        exact ⟨_, rfl, sound_empty⟩
      · rw [show (w.unlink p).rules = w.rules from if_neg hp]
        exact h.rules
  dropState _ h := h.of_eq rfl rfl

/-- What setup is given: a survivor for each word of the unit file, and adapters whose
addresses are addresses. -/
def SetupArgs.WellAsked (known : Text → Prop) (lower : Text → Text) (args : SetupArgs)
    (env : SetupEnv) : Prop :=
  args.noService = true ∨
    (∃ x, args.interval = .finite x ∧ Asked known (args.iface.getD []) args.name x) ∧
      ∀ t, env.address = some t → IsMac lower (lower (stripChars t))

/-- Setup is so asked, and each command keeps to its own files. -/
def Invocation.WellAsked (known : Text → Prop) (lower : Text → Text) (L : Layout) :
    Invocation → Prop
  | .setup args env =>
    (Normal args.key ∧ L.kind (components args.key) = some .key) ∧ args.WellAsked known lower env
  | .daemon args _ | .stop args => args.Respects L
  | .uninstall .. | .service .. => True

theorem renameIface_installed {w : Host} (h : Installed known lower repo w)
    (hiface : Survives known iface ∧ Literal iface) (noRename : Bool) {env : SetupEnv}
    (hmac : ∀ t, env.address = some t → IsMac lower (lower (stripChars t))) :
    (renameIface lower iface noRename env).wp
      (fun name t => (Survives known name ∧ Literal name) ∧ Installed known lower repo t)
      (Installed known lower repo) w := by
  have hempty : readRules lower (some []) = some OrderedDict.empty := rfl
  simp only [renameIface]
  split_ifs with hkeep hrenamed
  · exact wp_pure.mpr ⟨h, hiface, h⟩
  · simp only [wp_bind, wp_look, wp_expect, wp_act, wp_pure]
    refine ⟨h, h, fun r hr => ?_⟩
    obtain ⟨claimed, hread, hsound⟩ := h.rules
    cases haddress : env.address with
    | none => simp [haddress] at hkeep
    | some t =>
      rw [haddress] at hr
      obtain ⟨file, name, after, hone, hafter, hsound', -, halloc⟩ :=
        setup_spec (r := ⟨lower (stripChars t), env.present, env.renamed⟩) hread hsound
          (hmac t haddress)
      obtain rfl := Option.some.inj (hone.symm.trans hr)
      have hcut := h.putRules ⟨_, hempty, sound_empty⟩
      have hwritten := hcut.putRules ⟨after, hafter, hsound'⟩
      refine ⟨h, hcut, hcut, hwritten, hwritten, ?_, hwritten⟩
      rcases halloc with hrec | ⟨-, k, rfl, -⟩
      · obtain ⟨k, rfl⟩ := hsound.ours _ _ hrec
        exact survives_adapterName k
      · exact survives_adapterName k
  · simp only [wp_bind, wp_look, wp_expect, wp_pure]
    exact ⟨h, h, fun _ _ => ⟨h, hiface, h⟩⟩

theorem installUnit_installed {w : Host} (h : Installed known lower repo w)
    (hasked : Asked known iface name x) (env : SetupEnv) :
    (installUnit repo iface name (.finite x) env).wp (fun _ => Installed known lower repo)
      (Installed known lower repo) w := by
  simp only [installUnit]
  split_ifs with hsystemd
  · simp only [wp_bind, wp_expect, wp_act]
    refine ⟨h, fun text htext => ?_⟩
    have hcut : Installed known lower repo (w.putUnit (some [])) :=
      ⟨fun text ht => Or.inl (Option.some.inj ht).symm, h.rules⟩
    have hwritten : Installed known lower repo ((w.putUnit (some [])).putUnit (some text)) := by
      refine ⟨fun text' ht => Or.inr ⟨iface, name, x, hasked, ?_⟩, h.rules⟩
      rw [htext]
      exact ht
    refine ⟨h, hcut, hcut, hwritten, ?_⟩
    split
    · exact wp_fail.mpr hwritten
    · exact wp_fail.mpr hwritten
    · exact wp_pure.mpr ⟨hwritten, hwritten⟩
  · exact wp_pure.mpr ⟨h, h⟩

theorem setupMain_installed {args : SetupArgs} {env : SetupEnv}
    (hasked : args.WellAsked known lower env) :
    Keeps (Installed known lower repo) (setupMain lib lower repo args env) := by
  have hid : Keeps (Installed known lower repo) (setupIdentity lib args.key args.forceKeys env) :=
    keeps_setupIdentity (fun _ h => h)
      (fun u h => keeps_makedirs (fun _ ht => ht.of_eq rfl rfl) u h)
      (fun _ _ h => h.of_eq rfl rfl) (fun _ _ h => h.of_eq rfl rfl)
      (fun _ _ _ h => h.of_eq rfl rfl) _ _
  refine (keeps_require _ _).bind fun _ => (keeps_require _ _).bind fun _ =>
    (keeps_require _ _).bind fun _ => (keeps_require _ _).bind fun _ => hid.bind fun k => ?_
  split_ifs with hno
  · exact keeps_pure _
  · obtain ⟨⟨x, hx, hwords⟩, hmac⟩ := hasked.resolve_left hno
    intro w h
    rw [hx]
    simp only [wp_bind]
    refine (renameIface_installed h hwords.iface _ hmac).mono ?_ fun _ ht => ht
    rintro iface t ⟨hiface, ht⟩
    refine (installUnit_installed ht { hwords with iface := hiface } env).mono ?_ fun _ hu => hu
    intro _ u hu
    have hsay := hu.of_eq (t := u.say (.identity .node (components args.key)
      (k.identity lib).nodeId)) rfl rfl
    exact wp_act.mpr ⟨hu, hsay, hsay⟩

/-! ### The service -/

variable {w w' : Host} {is : List (Invocation × Option ℕ)}
  {os : List (Option (Except Failure Unit))}

theorem command_installed (h : Installed known lower repo w) {i : Invocation}
    (hi : i.WellAsked known lower L) :
    (i.command lib lower repo start).wp (fun _ => Installed known lower repo)
      (Installed known lower repo) w := by
  refine installed_kept.command (fun _ _ ht => ht.of_eq rfl rfl) (fun _ _ ht => ht.of_eq rfl rfl)
    (fun args env heq => ?_) w h
  subst heq
  exact setupMain_installed hi.2

theorem runs_installed (h : Installed known lower repo w)
    (his : ∀ i ∈ is, i.1.WellAsked known lower L)
    (hx : exec (Host.step lib lower repo start) w is = some (w', os)) :
    Installed known lower repo w' := by
  refine machine_invariant (P := fun _ i => i.WellAsked known lower L) (fun {s i} hi hs => ?_) h
    (eachStep_of_forall (fun i hi _ => his i hi) _) hx
  exact (command_installed hs hi).mono (fun _ _ _ => trivial) fun _ ht => ht

/-- The unit file is there, and is not one that a killed setup left empty. -/
def Host.HasUnit (w : Host) : Prop := w.unitFile ≠ none ∧ w.unitFile ≠ some []

theorem unitArgs_of_hasUnit (hs : Starter known start) (hrepo : Executable (program repo))
    (h : Installed known lower repo w) (hunit : w.HasUnit) : ∃ iface name x,
      unitArgs repo start w.unitFile = some (Args.asked iface name x) := by
  obtain ⟨text, htext⟩ := Option.ne_none_iff_exists'.mp hunit.1
  rcases h.unitFile text htext with rfl | ⟨iface, name, x, hasked, hinstall⟩
  · exact absurd htext hunit.2
  · exact ⟨iface, name, ⌊x⌋, by rw [htext, unitArgs_installService hs hrepo hasked hinstall]⟩

theorem unitArgs_of_not_hasUnit (hunit : ¬ w.HasUnit) : unitArgs repo start w.unitFile = none := by
  by_cases habsent : w.unitFile = none
  · rw [habsent]
    rfl
  · have hempty : w.unitFile = some [] := by
      by_contra hne
      exact hunit ⟨habsent, hne⟩
    rw [hempty, unitArgs_nil]

/-- Where setup was so asked, the service keeps to its own files too. -/
theorem Invocation.WellAsked.respects (hs : Starter known start)
    (hrepo : Executable (program repo)) (h : Installed known lower repo w) {i : Invocation}
    (hi : i.WellAsked known lower L) : i.Respects repo start L w := by
  cases i with
  | setup args env => exact hi.1
  | uninstall args env => trivial
  | daemon args env => exact hi
  | stop args => exact hi
  | service env =>
    intro args hargs
    by_cases hunit : w.HasUnit
    · obtain ⟨iface, name, x, hasked⟩ := unitArgs_of_hasUnit hs hrepo h hunit
      obtain rfl := Option.some.inj (hargs.symm.trans hasked)
      exact respects_asked L iface name x
    · rw [unitArgs_of_not_hasUnit hunit] at hargs
      cases hargs

theorem eachStep_respects (hs : Starter known start) (hrepo : Executable (program repo))
    (h : Installed known lower repo w) (his : ∀ i ∈ is, i.1.WellAsked known lower L) :
    EachStep (Host.step lib lower repo start) (fun s i => i.1.Respects repo start L s) w is := by
  refine eachStep_imp (P := fun i => i.1.WellAsked known lower L) (Q := fun _ _ => True)
    (fun {s i s' o} (hinv : Installed known lower repo s) hi hone => ?_)
    (fun ht hi _ => hi.respects hs hrepo ht) h his fun _ _ _ _ _ _ _ => trivial
  obtain ⟨rfl, -⟩ := Prod.mk.inj (Option.some.inj hone)
  exact (command_installed hinv hi).cut i.2

theorem result_serviceStart_unit {env : DaemonEnv} {args : Args}
    (h : unitArgs repo start w.unitFile = some args) :
    (serviceStart lib repo start env).result w = (daemonMain lib args env).result w := by
  rw [serviceStart, (returns_look _ _).result_bind, h, (returns_expect _ _ _).result_bind]

theorem returns_serviceStart_unit {env : DaemonEnv} {args : Args} {t : Host}
    (h : unitArgs repo start w.unitFile = some args)
    (hd : (daemonMain lib args env).Returns w () t) :
    (serviceStart lib repo start env).Returns w () t := by
  refine (returns_look _ _).bind ?_
  rw [h]
  exact (returns_expect _ _ _).bind hd

theorem result_readKeys {key : Text} {f : KeyFile} (hf : w.keys (components key) = some f)
    (hlen : f.content.length ≠ keyLen * 2) :
    (readKeys key).result w = .error (.wrongLength key f.content.length) := by
  rw [readKeys, (returns_look _ _).result_bind, hf, (returns_expect _ _ _).result_bind,
    loadKeys_eq_error_iff.mpr ⟨hlen, rfl⟩]
  rfl

/-- Whatever becomes of the socket, nothing is said. -/
theorem returns_controlListen (socket : Text) (steps : ℕ) (w : Host) :
    ∃ t, (controlListen socket steps).Returns w () t ∧ t.said = w.said := by
  by_cases hdir : w.dirs (components socket) = true
  · refine ⟨w, (returns_look _ _).bind ?_, rfl⟩
    rw [when, if_neg (by simp [hdir])]
    exact returns_pure _ _
  · set gs := [Host.unlink (components socket), Host.makeDirs (components socket).dropLast,
      Host.bindSocket (components socket)].take steps with hgs
    refine ⟨gs.foldl (fun t g => g t) w, (returns_look _ _).bind ?_, ?_⟩
    · rw [when, if_pos hdir]
      exact returns_forM (fun g => g) w
    · rw [hgs]
      rcases steps with _ | _ | _ | n
      · rfl
      · rfl
      · rfl
      · rw [List.take_succ_cons, List.take_succ_cons, List.take_succ_cons, List.take_nil]
        rfl

variable (lib) in
/-- A daemon that is up says which identity it has. -/
theorem returns_daemonMain (hw : w.Placed L) {args : Args} (hargs : args.Respects L)
    {env : DaemonEnv} {f : KeyFile} {k : PrivateKeys} (hf : w.keys (components args.key) = some f)
    (hk : f.content = k.blob) (hroot : env.isRoot = true) (hup : env.broughtUp = true) :
    ∃ t, (daemonMain lib args env).Returns w () t ∧ t.said = w.said ++
      [.identity .running (components args.key) (k.identity lib).nodeId] := by
  have hexists : w.pathExists (components args.key) = true := by
    simp [Host.pathExists, Host.isFile, hf]
  obtain ⟨u, hdirs, hsaid⟩ : ∃ u, (when (args.db ≠ ":memory:".toList)
      (makedirs (components args.db).dropLast)).Returns w () u ∧ u.said = w.said := by
    by_cases hdb : args.db ≠ ":memory:".toList
    · rw [when, if_pos hdb]
      exact ⟨_, returns_makedirs (hw.free (hargs.database_kind hdb)), rfl⟩
    · rw [when, if_neg hdb]
      exact ⟨w, returns_pure _ _, rfl⟩
  obtain ⟨t, hlisten, hsaid'⟩ := returns_controlListen args.socket env.listenSteps u
  refine ⟨t.say (.identity .running (components args.key) (k.identity lib).nodeId), ?_, ?_⟩
  · rw [daemonMain, require_bind hroot]
    refine (returns_look _ _).bind ?_
    rw [require_bind hexists, when, if_pos hup]
    exact (returns_readKeys hf hk).bind (hdirs.bind (hlisten.bind (returns_act _ _)))
  · rw [Host.say, hsaid', hsaid]

/-- After any run of commands that keep to their own files, whichever key files setup was given:
the service does not start without a unit file; otherwise it fails if the default key file
is absent or not whole, and comes up with the identity in that file if it is. -/
theorem service_follows_default_key (hs : Starter known start) (hrepo : Executable (program repo))
    (h : Installed known lower repo w) (hw : w.Placed L)
    (his : ∀ i ∈ is, i.1.WellAsked known lower L)
    (hx : exec (Host.step lib lower repo start) w is = some (w', os)) {env : DaemonEnv}
    (hroot : env.isRoot = true) (hup : env.broughtUp = true) :
    (¬ w'.HasUnit → (serviceStart lib repo start env).result w' = .error .notStarted) ∧
    (w'.HasUnit → w'.keys (components defaultKey) = none →
      (serviceStart lib repo start env).result w' = .error (.noIdentity defaultKey)) ∧
    ∀ f, w'.HasUnit → w'.keys (components defaultKey) = some f →
      (f.content.length ≠ keyLen * 2 → (serviceStart lib repo start env).result w' =
        .error (.wrongLength defaultKey f.content.length)) ∧
      ∀ k : PrivateKeys, f.content = k.blob →
        ∃ t, (serviceStart lib repo start env).Returns w' () t ∧ t.said = w'.said ++
          [.identity .running (components defaultKey) (k.identity lib).nodeId] := by
  have hinst := runs_installed h his hx
  have hplaced := runs_placed hw (eachStep_respects hs hrepo h his) hx
  refine ⟨fun hno => ?_, fun hunit hnone => ?_, fun f hunit hf => ⟨fun hlen => ?_, fun k hk => ?_⟩⟩
  · rw [serviceStart, (returns_look _ _).result_bind, unitArgs_of_not_hasUnit hno]
    rfl
  · obtain ⟨iface, name, x, hargs⟩ := unitArgs_of_hasUnit hs hrepo hinst hunit
    have hexists : w'.pathExists (components (Args.asked iface name x).key) = false :=
      hplaced.not_exists L.key hnone
    rw [result_serviceStart_unit hargs, daemonMain, require_bind hroot,
      (returns_look _ _).result_bind]
    exact result_bind_error (result_require (by simp [hexists]) _ _)
  · obtain ⟨iface, name, x, hargs⟩ := unitArgs_of_hasUnit hs hrepo hinst hunit
    have hf' : w'.keys (components (Args.asked iface name x).key) = some f := hf
    have hexists : w'.pathExists (components (Args.asked iface name x).key) = true := by
      simp [Host.pathExists, Host.isFile, hf']
    rw [result_serviceStart_unit hargs, daemonMain, require_bind hroot,
      (returns_look _ _).result_bind, require_bind hexists, when, if_pos hup]
    exact result_bind_error (result_readKeys hf hlen)
  · obtain ⟨iface, name, x, hargs⟩ := unitArgs_of_hasUnit hs hrepo hinst hunit
    obtain ⟨t, ht, hsaid⟩ :=
      returns_daemonMain lib hplaced (respects_asked L iface name x) hf hk hroot hup
    exact ⟨t, returns_serviceStart_unit hargs ht, hsaid⟩

theorem asked_sampleSetup :
    Asked known (sampleSetup.iface.getD []) sampleSetup.name announceInterval where
  iface := ⟨survives_wlan1, literal_of_all (by decide +kernel)⟩
  name := Or.inr ⟨survives_pi4, literal_of_all (by decide +kernel)⟩
  pos := by norm_num [announceInterval]
  double := by
    have hcast : announceInterval = ((21600 : ℕ) : ℚ) := by norm_num [announceInterval]
    rw [hcast]
    exact isDouble_of_natCast (by norm_num)

theorem wellAsked_sampleSetup :
    (Invocation.setup sampleSetup sampleEnv).WellAsked known lowerLatin sampleLayout :=
  ⟨respects_sampleSetup, Or.inr ⟨⟨_, rfl, asked_sampleSetup⟩, nofun⟩⟩

theorem installed_fresh : Installed known lowerLatin "/opt/wifipi".toList Host.fresh :=
  ⟨nofun, _, rfl, sound_empty⟩

theorem starter_startBare : Starter IsLetter startBare where
  start := by
    refine ⟨splitBare, splitter_splitBare, fun {line word argv} hsplit hword hargv => ?_⟩
    have hfirst : Literal word := by
      have hne : ∀ c t, word = c :: t → c = '/' := by
        rintro c t rfl
        exact (List.cons.inj hword.normal.eq).1
      refine ⟨fun hc => (hword.safe _ hc).2.1 rfl, fun hc => (hword.safe _ hc).2.2.1 rfl,
        fun heq => ?_, fun heq => ?_⟩
      · exact absurd (hne _ _ heq) (by decide)
      · exact absurd (hne _ _ heq) (by decide)
    refine Option.filter_eq_some_iff.mpr ⟨hsplit, List.all_eq_true.mpr fun w hw => ?_⟩
    rcases List.mem_cons.mp hw with rfl | hw
    · exact decide_eq_true hfirst
    · exact decide_eq_true (hargv w hw)

theorem executable_opt : Executable (program "/opt/wifipi".toList) where
  normal := by decide +kernel
  plain := by
    simp only [program, String.reduceToList]
    exact plain_of_all rfl
  safe := by
    have hall : (program "/opt/wifipi".toList).all fun c =>
        ' ' < c ∧ c ≠ '%' ∧ c ≠ '$' ∧ c ≠ '\x7f' := by decide +kernel
    simpa using hall

/-- Setup with a key in another place: the service is installed, and fails. -/
theorem service_follows_default_key_other : ∃ w' os,
    exec sampleStep Host.fresh [(.setup { sampleSetup with key := otherKey } sampleEnv, none)] =
      some (w', os) ∧
    (serviceStart sampleLibrary "/opt/wifipi".toList startBare ⟨true, true, 3⟩).result w' =
      .error (.noIdentity defaultKey) := by
  set i : Invocation := .setup { sampleSetup with key := otherKey } sampleEnv with hi
  set w' := ((i.command sampleLibrary lowerLatin "/opt/wifipi".toList startBare).cut none
    Host.fresh).1 with hw'
  have hx : exec sampleStep Host.fresh [(i, none)] = some (w',
      [((i.command sampleLibrary lowerLatin "/opt/wifipi".toList startBare).cut none
        Host.fresh).2]) := rfl
  have hother : Normal otherKey ∧ sampleLayout.kind (components otherKey) = some .key := by
    decide +kernel
  have hasked : ∀ j ∈ [(i, (none : Option ℕ))], j.1.WellAsked IsLetter lowerLatin sampleLayout := by
    intro j hj
    rw [List.mem_singleton.mp hj]
    exact ⟨hother, Or.inr ⟨⟨_, rfl, asked_sampleSetup⟩, nofun⟩⟩
  have hunit : w'.HasUnit := by
    have hsome : w'.unitFile.isSome = true := by
      rw [hw', hi]
      decide +kernel
    have hne : w'.unitFile ≠ some [] := by
      rw [hw', hi]
      decide +kernel
    exact ⟨Option.isSome_iff_ne_none.mp hsome, hne⟩
  have hkey : w'.keys (components defaultKey) = none := by
    rw [hw', hi]
    decide +kernel
  have hroot : (⟨true, true, 3⟩ : DaemonEnv).isRoot = true := rfl
  have h := service_follows_default_key starter_startBare executable_opt installed_fresh
    placed_fresh hasked hx hroot rfl
  exact ⟨w', _, hx, h.2.1 hunit hkey⟩

/-! ### From setup to service -/

/-- The file at the path holds the keys. -/
def Host.Stores (key : Text) (k : PrivateKeys) (w : Host) : Prop :=
  ∃ f, w.keys (components key) = some f ∧ f.content = k.blob

/-- The identity that setup goes on with is the one in the file. -/
theorem setupIdentity_stored (key : Text) (force : Bool) (env : SetupEnv) (w : Host) :
    (setupIdentity lib key force env).wp (Host.Stores key) (fun _ => True) w := by
  simp only [setupIdentity, wp_bind, wp_makedirs, wp_look, true_and]
  intro _
  have hgen (u : Host) :
      (generateIdentity lib key env).wp (Host.Stores key) (fun _ => True) u := by
    have hwritten : ((u.openKey env.umask (components key)).writeKey (components key)
        env.drawn.blob).Stores key env.drawn := by
      rw [Host.Stores, Host.writeKey, Host.putKey_self, Host.keys_openKey]
      exact ⟨_, rfl, rfl⟩
    simp only [generateIdentity, saveKeys, wp_bind, wp_act, wp_look, wp_when, wp_pure, true_and]
    exact ⟨fun _ => hwritten, fun _ => hwritten⟩
  split_ifs with hstored
  · simp only [wp_bind, wp_readKeys, wp_act, wp_pure, true_and]
    exact fun f k hf hk => ⟨f, hf, hk⟩
  · simp only [wp_bind, wp_when, wp_readKeys, wp_act, true_and]
    exact ⟨fun _ _ _ _ _ => hgen _, fun _ => hgen _⟩

/-- A setup of the service that returns has named the identity in its key file. -/
theorem setupMain_stored (args : SetupArgs) (env : SetupEnv) (hno : args.noService = false)
    (w : Host) :
    (setupMain lib lower repo args env).wp (fun _ t => ∃ f, ∃ k : PrivateKeys,
      t.keys (components args.key) = some f ∧ f.content = k.blob ∧
      Report.identity .node (components args.key) (k.identity lib).nodeId ∈ t.said)
      (fun _ => True) w := by
  simp only [setupMain, wp_bind, wp_require, true_and]
  intro _ _ _ _
  refine (setupIdentity_stored args.key args.forceKeys env w).mono ?_ fun _ _ => trivial
  rintro k t ⟨f, hf, hk⟩
  rw [if_neg (by simp [hno]), wp_bind]
  have hstart : Stable lib (components args.key) f t.said t := stable_refl hf
  refine (renameIface_stable hstart _ _ env).mono ?_ fun _ _ => trivial
  intro iface u hu
  rw [wp_bind]
  refine (installUnit_stable hu _ _ _ env).mono ?_ fun _ _ => trivial
  intro _ v hv
  exact wp_act.mpr ⟨trivial, trivial, f, k, hv.file, hk, by simp [Host.say]⟩

/-- Once setup has installed the service with the default key and returned, whatever commands
run that are asked well, and wherever they are killed: unless one forces new keys or purges
them, the service comes up, as long as it has a unit file, with the identity that setup
named. -/
theorem service_keeps_address (hs : Starter known start) (hrepo : Executable (program repo))
    (h : Installed known lower repo w) (hw : w.Placed L) {args : SetupArgs} {senv : SetupEnv}
    (hkey : args.key = defaultKey) (hno : args.noService = false)
    (hasked : args.WellAsked known lower senv)
    (his : ∀ i ∈ is, i.1.WellAsked known lower L ∧ ¬ i.1.Replaces (components defaultKey))
    (hx : exec (Host.step lib lower repo start) w ((.setup args senv, none) :: is) =
      some (w', some (.ok ()) :: os)) :
    ∃ id, Report.identity .node (components defaultKey) id ∈ w'.said ∧
      ∀ env : DaemonEnv, env.isRoot = true → env.broughtUp = true → w'.HasUnit →
        ∃ t, (serviceStart lib repo start env).Returns w' () t ∧
          t.said = w'.said ++ [.identity .running (components defaultKey) id] := by
  obtain ⟨u, o, os', hone, hrest, heq⟩ := exec_cons_iff.mp hx
  obtain ⟨rfl, rfl⟩ := List.cons.inj heq
  have hcut := Option.some.inj hone
  obtain ⟨f, k, hf, hk, hnode⟩ := (setupMain_stored args senv hno w).returned hcut
  rw [hkey] at hf hnode
  have hfirst : (Invocation.setup args senv).WellAsked known lower L :=
    ⟨hkey ▸ ⟨respects_defaults.normal.1, L.key⟩, hasked⟩
  have hinst : ((Invocation.setup args senv).command lib lower repo start).wp
      (fun _ => Installed known lower repo) (Installed known lower repo) w :=
    command_installed h hfirst
  have hkept : ((Invocation.setup args senv).command lib lower repo start).wp
      (fun _ => Host.Placed L) (Host.Placed L) w :=
    placed_command hw (hfirst.respects hs hrepo h)
  have hu := hinst.cut none
  have hplaced := hkept.cut none
  rw [hcut] at hu hplaced
  have hrespects : EachStep (Host.step lib lower repo start)
      (fun s i => i.1.Respects repo start L s) u is :=
    eachStep_respects hs hrepo hu fun i hi => (his i hi).1
  have hstable := runs_stable L.key hf (hrespects.mono fun hi hr =>
    ⟨hr, spares_of_not_replaces (his _ hi).2⟩) hrest
  obtain ⟨new, hnew, -⟩ := hstable.told
  refine ⟨(k.identity lib).nodeId, hnew ▸ List.mem_append_left _ hnode, ?_⟩
  intro env hroot hup hunit
  obtain ⟨iface, name, x, hargs⟩ := unitArgs_of_hasUnit hs hrepo
    (runs_installed hu (fun i hi => (his i hi).1) hrest) hunit
  obtain ⟨t, ht, hsaid⟩ := returns_daemonMain lib (runs_placed hplaced hrespects hrest)
    (respects_asked L iface name x) hstable.file hk hroot hup
  exact ⟨t, returns_serviceStart_unit hargs ht, hsaid⟩

theorem service_keeps_address_sampleSetup : ∃ w' os,
    exec sampleStep Host.fresh [(.setup sampleSetup sampleEnv, none),
      (.setup sampleSetup sampleEnv, some 3),
      (.uninstall ⟨false, false⟩ ⟨true, true, []⟩, some 0)] = some (w', some (.ok ()) :: os) ∧
    ∃ id, Report.identity .node (components defaultKey) id ∈ w'.said ∧
      ∀ env : DaemonEnv, env.isRoot = true → env.broughtUp = true → w'.HasUnit →
        ∃ t, (serviceStart sampleLibrary "/opt/wifipi".toList startBare env).Returns w' () t ∧
          t.said = w'.said ++ [.identity .running (components defaultKey) id] := by
  have hok : (setupMain sampleLibrary lowerLatin "/opt/wifipi".toList sampleSetup
      sampleEnv).result Host.fresh = .ok () := by
    cases hresult : (setupMain sampleLibrary lowerLatin "/opt/wifipi".toList sampleSetup
        sampleEnv).result Host.fresh with
    | ok u => rfl
    | error e =>
      have hisOk : ((setupMain sampleLibrary lowerLatin "/opt/wifipi".toList sampleSetup
          sampleEnv).result Host.fresh).isOk = true := by
        decide +kernel
      rw [hresult] at hisOk
      cases hisOk
  have hrest : ∀ i ∈ [(Invocation.setup sampleSetup sampleEnv, some 3),
      (.uninstall ⟨false, false⟩ ⟨true, true, []⟩, some 0)],
      i.1.WellAsked IsLetter lowerLatin sampleLayout ∧
        ¬ i.1.Replaces (components defaultKey) := by
    intro i hi
    simp only [List.mem_cons, List.not_mem_nil, or_false] at hi
    rcases hi with rfl | rfl
    · exact ⟨wellAsked_sampleSetup, fun h => by cases h.1⟩
    · exact ⟨trivial, fun h => by cases h.1⟩
  obtain ⟨w', os, hx⟩ : ∃ w' os, exec sampleStep Host.fresh
      [(.setup sampleSetup sampleEnv, none), (.setup sampleSetup sampleEnv, some 3),
        (.uninstall ⟨false, false⟩ ⟨true, true, []⟩, some 0)] =
      some (w', some (.ok ()) :: os) := by
    rw [← hok]
    exact ⟨_, _, rfl⟩
  exact ⟨w', os, hx, service_keeps_address starter_startBare executable_opt installed_fresh
    placed_fresh rfl rfl wellAsked_sampleSetup.2 hrest hx⟩

/-! ### Uninstall -/

/-- The second machine has nothing that the first one has not. -/
def Host.Fewer (w t : Host) : Prop := ∀ p, t.pathExists p = true → w.pathExists p = true

theorem Host.Fewer.trans {u t : Host} (h : w.Fewer u) (h' : u.Fewer t) : w.Fewer t :=
  fun p hp => h p (h' p hp)

end Beachedmesh
