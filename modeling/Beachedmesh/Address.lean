import Beachedmesh.Effects

/-!
# A node keeps its address

The identity of a node is what its key file holds. Of the commands that are given files of
the right kinds none but a forced setup or a purge touches a key file that is whole; none at
all but a purge touches one that a killed setup left half written, so that such a node stays
without an address.
-/
namespace Beachedmesh
open PyText Words Script Machine

variable {lib : KeyLibrary} {lower : Text → Text} {repo : Text}
  {start : Text → Option (List Text)} {L : Layout}

/-! ### What stays -/

/-- What the report says of the identity at the path is what the file holds. -/
def Tells (lib : KeyLibrary) (p : Path) (f : KeyFile) (r : Report) : Prop :=
  ∀ saying id, r = .identity saying p id → ∃ k : PrivateKeys, f.content = k.blob ∧
    id = (k.identity lib).nodeId

theorem tells_of_path_ne {p : Path} {f : KeyFile} {r : Report} (h : r.path ≠ p) :
    Tells lib p f r := by
  rintro saying id rfl
  exact absurd rfl h

/-- The file is there, and what has been said since was true of it. -/
structure Stable (lib : KeyLibrary) (p : Path) (f : KeyFile) (said : List Report) (w : Host) :
    Prop where
  file : w.keys p = some f
  told : ∃ new, w.said = said ++ new ∧ ∀ r ∈ new, Tells lib p f r

variable {p : Path} {f : KeyFile} {said : List Report} {w t : Host}

theorem stable_refl (h : w.keys p = some f) : Stable lib p f w.said w :=
  ⟨h, [], by simp, by simp⟩

/-- What else a command changes does not matter. -/
theorem Stable.of_eq (h : Stable lib p f said w) (hkeys : t.keys p = w.keys p)
    (hsaid : t.said = w.said) : Stable lib p f said t :=
  ⟨hkeys.trans h.file, hsaid ▸ h.told⟩

theorem Stable.say (h : Stable lib p f said w) {r : Report} (hr : Tells lib p f r) :
    Stable lib p f said (w.say r) := by
  obtain ⟨new, hnew, htold⟩ := h.told
  refine ⟨h.file, new ++ [r], by simp [Host.say, hnew], ?_⟩
  simp only [List.mem_append, List.mem_singleton]
  rintro r' (hr' | rfl)
  · exact htold r' hr'
  · exact hr

theorem Stable.putKey (h : Stable lib p f said w) {q : Path} (hq : q ≠ p) (g : Option KeyFile) :
    Stable lib p f said (w.putKey q g) :=
  h.of_eq (w.putKey_of_ne hq.symm g) rfl

theorem Stable.unlink (h : Stable lib p f said w) {q : Path} (hq : q ≠ p) :
    Stable lib p f said (w.unlink q) :=
  h.of_eq (Function.update_of_ne hq.symm _ _) rfl

theorem Stable.makedirs (h : Stable lib p f said w) (dir : Path) :
    (makedirs dir).wp (fun _ => Stable lib p f said) (Stable lib p f said) w :=
  wp_makedirs.mpr ⟨h, fun _ => ⟨h.of_eq rfl rfl, h.of_eq rfl rfl⟩⟩

/-- What is read at the path is true of the file. -/
theorem Stable.tells (h : Stable lib p f said w) {q : Path} {g : KeyFile} {k : PrivateKeys}
    (hg : w.keys q = some g) (hk : g.content = k.blob) (saying : Saying) :
    Tells lib p f (.identity saying q (k.identity lib).nodeId) := by
  rintro saying' id heq
  obtain ⟨-, rfl, rfl⟩ := Report.identity.inj heq
  obtain rfl := Option.some.inj (h.file.symm.trans hg)
  exact ⟨k, hk, rfl⟩

/-! ### What each command keeps -/

/-- The command does not replace the file at the path: it does not force new keys over old
ones, and does not delete the state directory around them. -/
def Invocation.Spares (p : Path) (f : KeyFile) : Invocation → Prop
  | .setup args _ => components args.key = p → args.forceKeys = true →
      f.content.length ≠ keyLen * 2
  | .uninstall args _ => args.purge = true → args.dryRun = false → ¬ stateDir <+: p
  | .daemon .. | .stop .. | .service .. => True

/-- The command cannot return before it has loaded the keys at the path. -/
def Invocation.Uses (p : Path) : Invocation → Prop
  | .setup args _ => components args.key = p
  | .daemon args env => components args.key = p ∧ env.broughtUp = true
  | .uninstall .. | .stop .. | .service .. => False

/-- At another path nothing that is generated matters. -/
theorem generateIdentity_stable (h : Stable lib p f said w) {key : Text}
    (hp : components key ≠ p) (env : SetupEnv) :
    (generateIdentity lib key env).wp (fun _ => Stable lib p f said) (Stable lib p f said) w := by
  have hopen : Stable lib p f said (w.openKey env.umask (components key)) := h.putKey hp _
  have hwrite : Stable lib p f said
      ((w.openKey env.umask (components key)).writeKey (components key) env.drawn.blob) :=
    hopen.putKey hp _
  have hsay := hwrite.say (r := .identity .generated (components key)
    (env.drawn.identity lib).nodeId) (tells_of_path_ne hp)
  simp only [generateIdentity, saveKeys, wp_bind, wp_act, wp_look, wp_when, wp_pure]
  refine ⟨h, hopen, hopen, hwrite, hwrite, hwrite, hsay, fun _ => ?_, fun _ => ⟨hsay, hsay, hsay⟩⟩
  have hwarn (mode : ℕ) := hsay.say (r := .readable (components key) mode) (tells_of_path_ne hp)
  exact ⟨hsay, hwarn _, hwarn _, hwarn _⟩

theorem setupIdentity_stable (h : Stable lib p f said w) {key : Text} {force : Bool}
    (hforce : components key = p → force = true → f.content.length ≠ keyLen * 2)
    (env : SetupEnv) :
    (setupIdentity lib key force env).wp
      (fun k t => Stable lib p f said t ∧ (components key = p → f.content = k.blob))
      (Stable lib p f said) w := by
  rw [setupIdentity, wp_bind]
  refine (h.makedirs _).mono (fun _ u hu => ?_) fun _ hu => hu
  simp only [wp_bind, wp_look]
  refine ⟨hu, ?_⟩
  split_ifs with hstored
  · simp only [wp_bind, wp_readKeys, wp_act, wp_pure]
    refine ⟨hu, fun g k hg hk => ?_⟩
    have hsay := hu.say (hu.tells hg hk .existing)
    refine ⟨hu, hsay, hsay, hsay, fun heq => ?_⟩
    rw [heq] at hg
    obtain rfl := Option.some.inj (hu.file.symm.trans hg)
    exact hk
  · simp only [wp_bind, wp_when, wp_readKeys, wp_act]
    by_cases hp : components key = p
    · -- the file is there, so this is a forced setup, and it cannot read the old keys
      have hthere : u.keys (components key) = some f := hp ▸ hu.file
      have hexists : u.pathExists (components key) = true := by
        simp [Host.pathExists, Host.isFile, hthere]
      have hforced : force = true := by simpa [hexists] using hstored
      refine ⟨fun _ => ⟨hu, fun g k hg hk => ?_⟩, fun hnot => ?_⟩
      · obtain rfl := Option.some.inj (hthere.symm.trans hg)
        exact absurd (by rw [hk, k.length_blob]) (hforce hp hforced)
      · exact absurd ⟨hforced, hexists⟩ hnot
    · have hrest (t : Host) (ht : Stable lib p f said t) : (generateIdentity lib key env).wp
          (fun k t => Stable lib p f said t ∧ (components key = p → f.content = k.blob))
          (Stable lib p f said) t :=
        (generateIdentity_stable ht hp env).mono (fun _ _ ht => ⟨ht, fun heq => absurd heq hp⟩)
          fun _ ht => ht
      refine ⟨fun _ => ⟨hu, fun g k _ _ => ?_⟩, fun _ => ⟨hu, hrest _ hu⟩⟩
      have hsay := hu.say (r := .identity .replacing (components key) (k.identity lib).nodeId)
        (tells_of_path_ne hp)
      exact ⟨hu, hsay, hrest _ hsay⟩

theorem renameIface_stable (h : Stable lib p f said w) (iface : Text) (noRename : Bool)
    (env : SetupEnv) :
    (renameIface lower iface noRename env).wp (fun _ => Stable lib p f said)
      (Stable lib p f said) w := by
  simp only [renameIface]
  split_ifs with hkeep hrenamed
  · exact wp_pure.mpr ⟨h, h⟩
  · simp only [wp_bind, wp_look, wp_expect, wp_act, wp_pure]
    refine ⟨h, h, fun after _ => ?_⟩
    exact ⟨h, h.of_eq rfl rfl, h.of_eq rfl rfl, h.of_eq rfl rfl, h.of_eq rfl rfl,
      h.of_eq rfl rfl⟩
  · simp only [wp_bind, wp_look, wp_expect, wp_pure]
    exact ⟨h, h, fun _ _ => ⟨h, h⟩⟩

theorem installUnit_stable (h : Stable lib p f said w) (iface name : Text) (interval : PyFloat)
    (env : SetupEnv) :
    (installUnit repo iface name interval env).wp (fun _ => Stable lib p f said)
      (Stable lib p f said) w := by
  simp only [installUnit]
  split_ifs with hsystemd
  · simp only [wp_bind, wp_expect, wp_act]
    refine ⟨h, fun text _ => ⟨h, h.of_eq rfl rfl, h.of_eq rfl rfl, h.of_eq rfl rfl, ?_⟩⟩
    have hwritten : Stable lib p f said ((w.putUnit (some [])).putUnit (some text)) :=
      h.of_eq rfl rfl
    split
    · exact wp_fail.mpr hwritten
    · exact wp_fail.mpr hwritten
    · exact wp_pure.mpr ⟨hwritten, hwritten⟩
  · exact wp_pure.mpr ⟨h, h⟩

/-- A setup that returns has loaded the keys at its path. -/
theorem setupMain_stable (h : Stable lib p f said w) {args : SetupArgs} {env : SetupEnv}
    (hspares : (Invocation.setup args env).Spares p f) :
    (setupMain lib lower repo args env).wp
      (fun _ t => Stable lib p f said t ∧
        (components args.key = p → f.content.length = keyLen * 2))
      (Stable lib p f said) w := by
  simp only [setupMain, wp_bind, wp_require]
  refine ⟨h, fun _ => ⟨h, fun _ => ⟨h, fun _ => ⟨h, fun _ => ?_⟩⟩⟩⟩
  refine (setupIdentity_stable h hspares env).mono ?_ fun _ ht => ht
  rintro k t ⟨ht, hk⟩
  have hlen : components args.key = p → f.content.length = keyLen * 2 := fun heq => by
    rw [hk heq, k.length_blob]
  split_ifs with hno
  · exact wp_pure.mpr ⟨ht, ht, hlen⟩
  · simp only [wp_bind]
    refine (renameIface_stable ht _ _ env).mono (fun iface u hu => ?_) fun _ hu => hu
    refine (installUnit_stable hu _ _ _ env).mono (fun _ v hv => ?_) fun _ hv => hv
    have hsay : Stable lib p f said
        (v.say (.identity .node (components args.key) (k.identity lib).nodeId)) := by
      refine hv.say fun saying id heq => ?_
      obtain ⟨-, hp, rfl⟩ := Report.identity.inj heq
      exact ⟨k, hk hp, rfl⟩
    exact wp_act.mpr ⟨hv, hsay, hsay, hlen⟩

theorem removeState_stable (h : Stable lib p f said w) (hp : ¬ stateDir <+: p)
    (order : List Path) :
    (removeState order).wp (fun _ => Stable lib p f said) (Stable lib p f said) w := by
  simp only [removeState, wp_bind, wp_look, wp_require]
  refine ⟨h, h, fun _ => ?_⟩
  refine (wp_forM (fun q hq t ht => ?_) h).mono (fun _ t ht => ?_) fun _ ht => ht
  · have hne : q ≠ p := by
      rintro rfl
      exact hp (List.isPrefixOf_iff_prefix.mp (List.mem_filter.mp hq).2)
    exact wp_act.mpr ⟨ht, ht.unlink hne, ht.unlink hne⟩
  · have hdrop : Stable lib p f said t.dropState := ht.of_eq (if_neg hp) rfl
    exact wp_act.mpr ⟨ht, hdrop, hdrop⟩

theorem announceDeletion_stable (h : Stable lib p f said w) :
    (announceDeletion lib).wp (fun _ => Stable lib p f said) (Stable lib p f said) w := by
  simp only [announceDeletion, wp_bind, wp_look]
  refine ⟨h, ?_⟩
  split
  · next keys hload =>
    obtain ⟨g, hg, hk⟩ := Option.map_eq_some_iff.mp hload
    have hsay := h.say (h.tells hg (loadKeys_eq_ok_iff.mp hk) .deleting)
    exact wp_act.mpr ⟨h, hsay, hsay⟩
  · exact wp_pure.mpr ⟨h, h⟩

theorem uninstallMain_stable (hp : L.kind p = some .key) (h : Stable lib p f said w)
    {args : UninstallArgs} {env : UninstallEnv}
    (hspares : (Invocation.uninstall args env).Spares p f) :
    (uninstallMain lib args env).wp (fun _ => Stable lib p f said) (Stable lib p f said) w := by
  -- none of the files that are removed before the purge is the key file
  have hremove {c : Prop} [Decidable c] {q : Path} {kind : Kind} (hq : L.kind q = some kind)
      (hkind : kind ≠ .key) {u : Host} {Q : Unit → Host → Prop} (hu : Stable lib p f said u)
      (hQ : ∀ v, Stable lib p f said v → Q () v) :
      (when c (unlink q)).wp Q (Stable lib p f said) u := by
    have hgone := hu.unlink (L.ne_of_kind hq hp hkind)
    exact wp_when.mpr ⟨fun _ => wp_unlink.mpr ⟨hu, fun _ => ⟨hgone, hQ _ hgone⟩⟩,
      fun _ => ⟨hu, hQ _ hu⟩⟩
  simp only [uninstallMain, wp_bind, wp_require, wp_look]
  refine ⟨h, fun _ => ⟨h, hremove L.unit (by decide) h fun t ht => ⟨ht, ?_⟩⟩⟩
  refine hremove L.socket (by decide) ht fun u hu => ⟨hu, ?_⟩
  refine hremove L.rules (by decide) hu fun v hv => ⟨hv, ?_⟩
  rw [wp_when, wp_bind]
  refine ⟨fun hpurge => ?_, fun _ => ⟨hv, hv⟩⟩
  obtain ⟨hyes, -, hdry⟩ := hpurge
  exact (announceDeletion_stable hv).mono
    (fun _ _ hx => removeState_stable hx (hspares hyes (by simpa using hdry)) _) fun _ hx => hx

theorem controlListen_stable (h : Stable lib p f said w) {socket : Text}
    (hne : components socket ≠ p) (steps : ℕ) :
    (controlListen socket steps).wp (fun _ => Stable lib p f said) (Stable lib p f said) w := by
  simp only [controlListen, wp_bind, wp_look, wp_when]
  refine ⟨h, fun _ => wp_forM (fun g hg t ht => ?_) h, fun _ => ⟨h, h⟩⟩
  have hstep : Stable lib p f said (g t) := by
    have hmem := List.mem_of_mem_take hg
    simp only [List.mem_cons, List.not_mem_nil, or_false] at hmem
    rcases hmem with rfl | rfl | rfl
    · exact ht.unlink hne
    · exact ht.of_eq rfl rfl
    · exact ht.of_eq rfl rfl
  exact wp_act.mpr ⟨ht, hstep, hstep⟩

/-- A daemon that comes up has loaded the keys at its path. -/
theorem daemonMain_stable (hp : L.kind p = some .key) (h : Stable lib p f said w) {args : Args}
    (hargs : args.Respects L) (env : DaemonEnv) :
    (daemonMain lib args env).wp
      (fun _ t => Stable lib p f said t ∧
        (components args.key = p → env.broughtUp = true → f.content.length = keyLen * 2))
      (Stable lib p f said) w := by
  have hne : components args.socket ≠ p := L.ne_of_kind hargs.socket hp (by decide)
  simp only [daemonMain, wp_bind, wp_require, wp_look]
  refine ⟨h, fun _ => ⟨h, h, fun _ => ?_⟩⟩
  rw [wp_when, wp_bind, wp_readKeys]
  refine ⟨fun _ => ⟨h, fun g k hg hk => ?_⟩, fun hdown => ⟨h, h, fun _ hup => absurd hup hdown⟩⟩
  have hlen : components args.key = p → env.broughtUp = true → f.content.length = keyLen * 2 := by
    intro heq _
    rw [heq] at hg
    obtain rfl := Option.some.inj (h.file.symm.trans hg)
    rw [hk, k.length_blob]
  have hsay {u : Host} (hu : Stable lib p f said u) := hu.say (h.tells hg hk .running)
  have hrest (u : Host) (hu : Stable lib p f said u) :
      (controlListen args.socket env.listenSteps >>= fun _ => act (Host.say
        (.identity .running (components args.key) (k.identity lib).nodeId))).wp
      (fun _ t => Stable lib p f said t ∧
        (components args.key = p → env.broughtUp = true → f.content.length = keyLen * 2))
      (Stable lib p f said) u :=
    wp_bind.mpr ((controlListen_stable hu hne _).mono
      (fun _ _ ht => wp_act.mpr ⟨ht, hsay ht, hsay ht, hlen⟩) fun _ ht => ht)
  rw [wp_bind, wp_when]
  exact ⟨fun _ => (h.makedirs _).mono (fun _ => hrest) fun _ ht => ht, fun _ => ⟨h, hrest w h⟩⟩

/-- What none of the commands does. -/
theorem command_stable (hp : L.kind p = some .key) (h : Stable lib p f said w) {i : Invocation}
    (hrespects : i.Respects repo start L w) (hspares : i.Spares p f) :
    (i.command lib lower repo start).wp
      (fun _ t => Stable lib p f said t ∧ (i.Uses p → f.content.length = keyLen * 2))
      (Stable lib p f said) w := by
  cases i with
  | setup args env => exact setupMain_stable h hspares
  | uninstall args env =>
    exact (uninstallMain_stable hp h hspares).mono (fun _ _ ht => ⟨ht, False.elim⟩) fun _ ht => ht
  | daemon args env =>
    exact (daemonMain_stable hp h hrespects env).mono
      (fun _ _ ht => ⟨ht.1, fun hu => ht.2 hu.1 hu.2⟩) fun _ ht => ht
  | stop args =>
    have hstop := h.unlink (L.ne_of_kind hrespects.socket hp (by decide))
    simp only [Invocation.command, daemonStop, wp_bind, wp_look, wp_when, wp_act]
    exact ⟨h, fun _ => ⟨h, hstop, hstop, False.elim⟩, fun _ => ⟨h, h, False.elim⟩⟩
  | service env =>
    rw [Invocation.command, serviceStart]
    simp only [wp_bind, wp_look, wp_expect]
    exact ⟨h, h, fun args hargs => (daemonMain_stable hp h (hrespects args hargs) env).mono
      (fun _ _ ht => ⟨ht.1, False.elim⟩) fun _ ht => ht⟩

/-! ### Whole runs -/

variable {is : List (Invocation × Option ℕ)} {os : List (Option (Except Failure Unit))}
  {w' : Host}

theorem runs_stable (hp : L.kind p = some .key) (hfile : w.keys p = some f)
    (his : EachStep (Host.step lib lower repo start)
      (fun s i => i.1.Respects repo start L s ∧ i.1.Spares p f) w is)
    (hx : exec (Host.step lib lower repo start) w is = some (w', os)) :
    Stable lib p f w.said w' := by
  refine machine_invariant (P := fun s (i : Invocation) => i.Respects repo start L s ∧ i.Spares p f)
    (fun {s i} hi hs => ?_) (stable_refl hfile) his hx
  exact (command_stable hp hs hi.1 hi.2).mono (fun _ _ _ => trivial) fun _ h => h

theorem runs_returned (hp : L.kind p = some .key) (hfile : w.keys p = some f)
    (his : EachStep (Host.step lib lower repo start)
      (fun s i => i.1.Respects repo start L s ∧ i.1.Spares p f) w is)
    (hx : exec (Host.step lib lower repo start) w is = some (w', os)) {i : Invocation × Option ℕ}
    (hi : (i, some (.ok ())) ∈ is.zip os) (huses : i.1.Uses p) :
    f.content.length = keyLen * 2 := by
  have hstart : Stable lib p f w.said w := stable_refl hfile
  refine machine_returned (P := fun s (i : Invocation) => i.Respects repo start L s ∧ i.Spares p f)
    (Q := fun i _ => i.Uses p → f.content.length = keyLen * 2) (fun {s i} hi hs => ?_) hstart his
    hx hi huses
  exact (command_stable hp hs hi.1 hi.2).mono (fun _ _ h => h.2) fun _ h => h

/-- The command deletes the state directory, with the path in it. -/
def Invocation.Purges (p : Path) : Invocation → Prop
  | .uninstall args _ => args.purge = true ∧ args.dryRun = false ∧ stateDir <+: p
  | .setup .. | .daemon .. | .stop .. | .service .. => False

/-- The command may put other keys at the path, or none. -/
def Invocation.Replaces (p : Path) : Invocation → Prop
  | .setup args _ => args.forceKeys = true ∧ components args.key = p
  | .uninstall args env => (Invocation.uninstall args env).Purges p
  | .daemon .. | .stop .. | .service .. => False

theorem spares_of_not_replaces {i : Invocation} (h : ¬ i.Replaces p) : i.Spares p f := by
  cases i with
  | setup args env => exact fun hp hforce => absurd ⟨hforce, hp⟩ h
  | uninstall args env => exact fun hpurge hdry hunder => h ⟨hpurge, hdry, hunder⟩
  | daemon | stop | service => trivial

theorem spares_of_not_purges {i : Invocation} (h : ¬ i.Purges p)
    (hlen : f.content.length ≠ keyLen * 2) : i.Spares p f := by
  cases i with
  | setup args env => exact fun _ _ => hlen
  | uninstall args env => exact fun hpurge hdry hunder => h ⟨hpurge, hdry, hunder⟩
  | daemon | stop | service => trivial

theorem blob_injective : Function.Injective PrivateKeys.blob := by
  intro k k' h
  have hload : ∀ j : PrivateKeys, loadKeys [] j.blob = .ok j := fun j => loadKeys_eq_ok_iff.mpr rfl
  exact Except.ok.inj ((hload k).symm.trans (h ▸ hload k'))

theorem tells_iff {k : PrivateKeys} (hk : f.content = k.blob) {saying : Saying} {id : NodeId} :
    Tells lib p f (.identity saying p id) ↔ id = (k.identity lib).nodeId := by
  constructor
  · intro h
    obtain ⟨k', hk', rfl⟩ := h saying id rfl
    rw [blob_injective (hk'.symm.trans hk)]
  · rintro rfl saying' id heq
    obtain ⟨-, -, rfl⟩ := Report.identity.inj heq
    exact ⟨k, hk, rfl⟩

theorem said_kept (said : List Report) : Host.Kept fun w => said <+: w.said where
  say _ _ h := h.trans (List.prefix_append _ _)
  unlink _ _ h := h
  dropState _ h := h

/-- A setup that finds the file says whose it is, and goes on. -/
theorem setupMain_existing (hw : w.Placed L) {args : SetupArgs} {env : SetupEnv} {k : PrivateKeys}
    (hkey : L.kind (components args.key) = some .key)
    (hfile : w.keys (components args.key) = some f) (hk : f.content = k.blob)
    (hforce : args.forceKeys = false) (hroot : env.isRoot = true)
    (hiface : args.noService = true ∨ args.iface.getD [] ≠ []) (hcrypto : env.cryptography = true)
    (hiw : env.iw = true) :
    (∃ rest, ((setupMain lib lower repo args env).last w).said = w.said ++
      .identity .existing (components args.key) (k.identity lib).nodeId :: rest) ∧
    (args.noService = true → (setupMain lib lower repo args env).result w = .ok ()) := by
  set u := w.makeDirs (components args.key).dropLast
  have hthere : u.keys (components args.key) = some f := hfile
  have hexists : u.pathExists (components args.key) = true := by
    simp [Host.pathExists, Host.isFile, hthere]
  have hread : (readKeys args.key).Returns u k u := returns_readKeys hthere hk
  have hid : (setupIdentity lib args.key args.forceKeys env).Returns w k
      (u.say (.identity .existing (components args.key) (k.identity lib).nodeId)) := by
    refine (returns_makedirs (hw.free (by simp [hkey]))).bind ((returns_look _ _).bind ?_)
    rw [if_pos ⟨hexists, by simp [hforce]⟩]
    exact hread.bind ((returns_act _ _).bind (returns_pure k _))
  set said := w.said ++ [.identity .existing (components args.key) (k.identity lib).nodeId]
    with hsaid
  have hkept := said_kept said
  have hrules (text : Option Text) (v : Host) (hv : said <+: v.said) :
      said <+: (v.putRules text).said := hv
  have hunit (text : Option Text) (v : Host) (hv : said <+: v.said) :
      said <+: (v.putUnit text).said := hv
  rw [setupMain, require_bind hroot, require_bind hiface, require_bind hcrypto, require_bind hiw,
    last_bind hid.1, hid.2, hid.result_bind]
  constructor
  · have htail : Keeps (fun v : Host => said <+: v.said)
        (if args.noService = true then (pure () : Command Unit) else do
          let iface ← renameIface lower (args.iface.getD []) args.noRename env
          let _started ← installUnit repo iface args.name args.interval env
          act (Host.say (.identity .node (components args.key) (k.identity lib).nodeId))) := by
      split_ifs
      · exact keeps_pure _
      · exact (keeps_renameIface hrules _ _ _).bind fun _ =>
          (keeps_installUnit hunit _ _ _ _).bind fun _ => keeps_act (hkept.say _)
    obtain ⟨rest, hrest⟩ := (htail (u.say (.identity .existing (components args.key)
      (k.identity lib).nodeId)) (List.prefix_refl said)).1 _ (last_mem _ _)
    exact ⟨rest, by rw [← hrest, hsaid]; simp⟩
  · intro hno
    rw [if_pos hno]
    rfl

/-- Whatever commands run that keep to their own files, and wherever they are killed: unless
one forces new keys at the path or purges it, the key file there stays, all that is said of the
identity there is its address, and a further setup finds it. -/
theorem address_permanent (hw : w.Placed L) {k : PrivateKeys} (hfile : w.keys p = some f)
    (hk : f.content = k.blob)
    (his : EachStep (Host.step lib lower repo start)
      (fun s i => i.1.Respects repo start L s ∧ ¬ i.1.Replaces p) w is)
    (hx : exec (Host.step lib lower repo start) w is = some (w', os)) :
    w'.keys p = some f ∧
    (∃ new, w'.said = w.said ++ new ∧
      ∀ saying id, Report.identity saying p id ∈ new → id = (k.identity lib).nodeId) ∧
    ∀ (args : SetupArgs) (env : SetupEnv), Normal args.key → components args.key = p →
      args.forceKeys = false → env.isRoot = true →
      (args.noService = true ∨ args.iface.getD [] ≠ []) → env.cryptography = true →
      env.iw = true →
      (∃ rest, ((setupMain lib lower repo args env).last w').said =
        w'.said ++ .identity .existing p (k.identity lib).nodeId :: rest) ∧
      (args.noService = true → (setupMain lib lower repo args env).result w' = .ok ()) := by
  have hp : L.kind p = some .key := hw.keys p (by simp [hfile])
  have hstable := runs_stable hp hfile
    (his.mono fun _ hi => ⟨hi.1, spares_of_not_replaces hi.2⟩) hx
  have hplaced := runs_placed hw (his.mono fun _ hi => hi.1) hx
  obtain ⟨new, hnew, htold⟩ := hstable.told
  refine ⟨hstable.file, ⟨new, hnew, fun saying id hr => (tells_iff hk).mp (htold _ hr)⟩, ?_⟩
  rintro args env - rfl hforce hroot hiface hcrypto hiw
  exact setupMain_existing hplaced hp hstable.file hk hforce hroot hiface hcrypto hiw

/-- The machine with the keys of `sampleNode` in the default place. -/
def Host.keyed : Host :=
  (Host.fresh.makeDirs Beachedmesh.stateDir).putKey (components defaultKey)
    (some ⟨sampleKeys.blob, 0o600⟩)

theorem placed_keyed : Host.keyed.Placed sampleLayout := by
  have hkey := sampleLayout.key
  have hmade := placed_fresh.makeDirs (p := components defaultKey) (by simp [hkey])
  rw [show (components defaultKey).dropLast = stateDir by decide +kernel] at hmade
  refine hmade.putKey hkey (fun _ => ?_) _
  decide +kernel

/-- A setup and an uninstall that are killed, forced keys in another place, and a daemon. -/
def sampleLife : List (Invocation × Option ℕ) :=
  [(.setup sampleSetup sampleEnv, some 3), (.uninstall ⟨false, false⟩ ⟨true, true, []⟩, some 1),
    (.setup { sampleSetup with key := otherKey, forceKeys := true } sampleEnv, none),
    (.uninstall ⟨true, true⟩ ⟨true, true, []⟩, none),
    (.daemon Args.defaults ⟨true, true, 3⟩, none), (.stop Args.defaults, none)]

theorem respects_sampleSetup :
    Normal sampleSetup.key ∧ sampleLayout.kind (components sampleSetup.key) = some .key :=
  ⟨respects_defaults.normal.1, sampleLayout.key⟩

theorem address_permanent_sampleLife : ∃ w' os,
    exec sampleStep Host.keyed sampleLife = some (w', os) ∧
      w'.keys (components defaultKey) = some ⟨sampleKeys.blob, 0o600⟩ ∧
      ∃ new, w'.said = [] ++ new ∧ ∀ saying id,
        Report.identity saying (components defaultKey) id ∈ new → id = sampleNode := by
  have hother : Normal otherKey ∧ sampleLayout.kind (components otherKey) = some .key := by
    decide +kernel
  have his : ∀ i ∈ sampleLife, ∀ s : Host,
      i.1.Respects "/opt/wifipi".toList startBare sampleLayout s ∧
        ¬ i.1.Replaces (components defaultKey) := by
    have hne : components otherKey ≠ components defaultKey := by decide +kernel
    intro i hi s
    simp only [sampleLife, List.mem_cons, List.not_mem_nil, or_false] at hi
    rcases hi with rfl | rfl | rfl | rfl | rfl | rfl
    · exact ⟨respects_sampleSetup, fun h => by cases h.1⟩
    · exact ⟨trivial, fun h => by cases h.1⟩
    · exact ⟨hother, fun h => hne h.2⟩
    · exact ⟨trivial, fun h => by cases h.2.1⟩
    · exact ⟨respects_defaults, id⟩
    · exact ⟨respects_defaults, id⟩
  have hfile : Host.keyed.keys (components defaultKey) = some ⟨sampleKeys.blob, 0o600⟩ :=
    Host.putKey_self _ _ _
  obtain ⟨w', os, hx⟩ : ∃ w' os, exec sampleStep Host.keyed sampleLife = some (w', os) :=
    ⟨_, _, rfl⟩
  have h := address_permanent placed_keyed hfile rfl (eachStep_of_forall his _) hx
  exact ⟨w', os, hx, h.1, h.2.1⟩

/-! ### A setup that was killed -/

variable (lib lower repo) in
/-- The first two steps of a setup that finds no key file: it makes the directory, and
creates the file. -/
theorem trail_setupMain (hw : w.Placed L) {args : SetupArgs} {env : SetupEnv}
    (hkey : L.kind (components args.key) = some .key)
    (hnone : w.keys (components args.key) = none) (hroot : env.isRoot = true)
    (hiface : args.noService = true ∨ args.iface.getD [] ≠ [])
    (hcrypto : env.cryptography = true) (hiw : env.iw = true) :
    [w.makeDirs (components args.key).dropLast, (w.makeDirs (components args.key).dropLast).openKey
      env.umask (components args.key)] <+: (setupMain lib lower repo args env).trail w := by
  have hne : L.kind (components args.key) ≠ none := by simp [hkey]
  have hfree := hw.free hne
  set u := w.makeDirs (components args.key).dropLast with hu
  have hexists : u.pathExists (components args.key) = false :=
    (hw.makeDirs hne).not_exists hkey hnone
  have hmake : (makedirs (components args.key).dropLast).trail w = [u] := by
    have hblocked : ¬ ((components args.key).dropLast.inits.any w.isFile = true) := by
      simpa [List.any_eq_true] using hfree
    rw [makedirs, (returns_look _ _).trail_bind, require_bind hblocked]
    rfl
  have hsave : [u.openKey env.umask (components args.key)] <+:
      (saveKeys args.key env.umask env.drawn).trail u := trail_first (act _) _ u
  have hopen : [u.openKey env.umask (components args.key)] <+:
      (generateIdentity lib args.key env).trail u := hsave.trans (trail_first _ _ u)
  have hid : [u, u.openKey env.umask (components args.key)] <+:
      (setupIdentity lib args.key args.forceKeys env).trail w := by
    rw [setupIdentity, (returns_makedirs hfree).trail_bind, hmake, (returns_look _ _).trail_bind,
      hexists, if_neg (by simp), when, if_neg (by simp), (returns_pure _ _).trail_bind]
    exact List.prefix_append_right_inj [u] |>.mpr hopen
  rw [setupMain, require_bind hroot, require_bind hiface, require_bind hcrypto, require_bind hiw]
  exact hid.trans (trail_first _ _ _)

/-- A setup that finds no key file and is killed between creating the file and writing it
leaves the node without an address: until the path is purged, whatever commands run that keep
to their own files, the file stays empty, nothing is said of an identity there, and no setup
(a forced one neither) and no daemon with that key returns. -/
theorem half_written_key_sticks (hw : w.Placed L) {args : SetupArgs} {env : SetupEnv}
    (hnone : w.keys (components args.key) = none) (hroot : env.isRoot = true)
    (hiface : args.noService = true ∨ args.iface.getD [] ≠ [])
    (hcrypto : env.cryptography = true) (hiw : env.iw = true)
    (hrespects : EachStep (Host.step lib lower repo start)
      (fun s i => i.1.Respects repo start L s) w ((.setup args env, some 2) :: is))
    (his : ∀ i ∈ is, ¬ i.1.Purges (components args.key))
    (hx : exec (Host.step lib lower repo start) w ((.setup args env, some 2) :: is) =
      some (w', os)) :
    w'.keys (components args.key) = some ⟨[], 0o600 &&& (env.umask ^^^ 0o777)⟩ ∧
    (∃ new, w'.said = w.said ++ new ∧
      ∀ saying id, Report.identity saying (components args.key) id ∉ new) ∧
    ∀ i, (i, some (.ok ())) ∈ is.zip os.tail → ¬ i.1.Uses (components args.key) := by
  obtain ⟨u, o, os', hone, hrest, rfl⟩ := exec_cons_iff.mp hx
  obtain ⟨hsetup, hrespects'⟩ := (eachStep_cons_iff hone).mp hrespects
  have hkey : L.kind (components args.key) = some .key := hsetup.2
  set p := components args.key
  set f : KeyFile := ⟨[], 0o600 &&& (env.umask ^^^ 0o777)⟩ with hf
  have hcut : u = (w.makeDirs p.dropLast).openKey env.umask p := by
    obtain ⟨rest, hrest⟩ := trail_setupMain lib lower repo hw hkey hnone hroot hiface hcrypto hiw
    have hleft : ((setupMain lib lower repo args env).trail w).take 2 =
        [w.makeDirs p.dropLast, (w.makeDirs p.dropLast).openKey env.umask p] := by
      rw [← hrest]
      rfl
    rw [← (Prod.mk.inj (Option.some.inj hone)).1]
    simp only [Invocation.command, hleft]
    rfl
  have hfile : u.keys p = some f := by
    rw [hcut, Host.keys_openKey, show (w.makeDirs p.dropLast).keys p = none from hnone]
    rfl
  have hlen : f.content.length ≠ keyLen * 2 := by
    rw [hf]
    exact (by decide : (0 : ℕ) ≠ keyLen * 2)
  have hspares : EachStep (Host.step lib lower repo start)
      (fun s i => i.1.Respects repo start L s ∧ i.1.Spares p f) u is :=
    hrespects'.mono fun hi hr => ⟨hr, spares_of_not_purges (his _ hi) hlen⟩
  have hstable := runs_stable hkey hfile hspares hrest
  obtain ⟨new, hnew, htold⟩ := hstable.told
  refine ⟨hstable.file, ⟨new, ?_, fun saying id hr => ?_⟩, fun i hi huses => ?_⟩
  · rw [hnew, hcut]
    rfl
  · obtain ⟨k, hk, -⟩ := htold _ hr saying id rfl
    exact hlen (by rw [hk, k.length_blob])
  · exact hlen (runs_returned hkey hfile hspares hrest hi huses)

/-- On a machine with nothing installed: forced keys do not help. -/
theorem half_written_key_sticks_forced : ∃ w' os,
    exec sampleStep Host.fresh ((.setup sampleSetup sampleEnv, some 2) ::
      [(.setup { sampleSetup with forceKeys := true } sampleEnv, none)]) = some (w', os) ∧
    w'.keys (components defaultKey) = some ⟨[], 0o600 &&& (0o022 ^^^ 0o777)⟩ := by
  obtain ⟨w', os, hx⟩ : ∃ w' os, exec sampleStep Host.fresh
      ((.setup sampleSetup sampleEnv, some 2) ::
        [(.setup { sampleSetup with forceKeys := true } sampleEnv, none)]) = some (w', os) :=
    ⟨_, _, rfl⟩
  have hrespects : ∀ i ∈ (Invocation.setup sampleSetup sampleEnv, some 2) ::
      [(Invocation.setup { sampleSetup with forceKeys := true } sampleEnv, none)],
      ∀ s : Host, i.1.Respects "/opt/wifipi".toList startBare sampleLayout s := by
    intro i hi s
    simp only [List.mem_cons, List.not_mem_nil, or_false] at hi
    rcases hi with rfl | rfl
    · exact respects_sampleSetup
    · exact respects_sampleSetup
  have hpurges : ∀ i ∈ [(Invocation.setup { sampleSetup with forceKeys := true } sampleEnv,
      (none : Option ℕ))], ¬ i.1.Purges (components sampleSetup.key) := by
    intro i hi
    rw [List.mem_singleton.mp hi]
    exact id
  have hiface : sampleSetup.noService = true ∨ sampleSetup.iface.getD [] ≠ [] :=
    Or.inr (by decide +kernel)
  exact ⟨w', os, hx, (half_written_key_sticks placed_fresh rfl rfl hiface rfl rfl
    (eachStep_of_forall hrespects _) hpurges hx).1⟩

/-! ### Key files are never open to others -/

/-- The file is the owner's alone, or has the mode that it had; it is empty or whole, or holds
what it held. -/
def KeyFile.Guarded (f : KeyFile) (before : Option KeyFile) : Prop :=
  (f.mode &&& 0o077 = 0 ∨ ∃ g, before = some g ∧ g.mode = f.mode) ∧
  (f.content = [] ∨ f.content.length = keyLen * 2 ∨ ∃ g, before = some g ∧ g.content = f.content)

def Host.Guarded (before w : Host) : Prop :=
  ∀ p f, w.keys p = some f → f.Guarded (before.keys p)

variable {before : Host}

theorem Host.Guarded.putKey (h : before.Guarded w) {p : Path} {g : Option KeyFile}
    (hg : ∀ f, g = some f → f.Guarded (before.keys p)) : before.Guarded (w.putKey p g) := by
  intro q f hf
  by_cases hq : q = p
  · subst hq
    exact hg f ((w.putKey_self q g).symm.trans hf)
  · exact h q f ((w.putKey_of_ne hq g).symm.trans hf)

theorem mode_private (umask : ℕ) : 0o600 &&& (umask ^^^ 0o777) &&& 0o077 = 0 := by
  rw [Nat.and_comm 0o600, Nat.and_assoc]
  exact Nat.and_zero _

theorem Host.Guarded.openKey (h : before.Guarded w) (umask : ℕ) (p : Path) :
    before.Guarded (w.openKey umask p) := by
  refine h.putKey fun f hf => ?_
  obtain rfl := Option.some.inj hf
  refine ⟨?_, Or.inl rfl⟩
  cases hold : w.keys p with
  | none => exact Or.inl (mode_private umask)
  | some g => exact (h p g hold).1

theorem Host.Guarded.writeKey (h : before.Guarded w) (p : Path) {b : Bytes}
    (hb : b.length = keyLen * 2) : before.Guarded (w.writeKey p b) := by
  refine h.putKey fun f hf => ?_
  obtain ⟨g, hg, rfl⟩ := Option.map_eq_some_iff.mp hf
  exact ⟨(h p g hg).1, Or.inr (Or.inl hb)⟩

end Beachedmesh
