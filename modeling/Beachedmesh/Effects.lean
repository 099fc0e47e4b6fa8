import Beachedmesh.Lifecycle

/-!
# What the commands keep

An invariant that the single effects keep holds wherever a command is killed. One such
invariant is that the files are where they belong: each command, as long as it is given files of
the right kinds, finds and leaves key files, sockets and directories in their places.
-/
namespace Beachedmesh
open PyText Words Script Machine

/-! ### Reading keys back -/

theorem PrivateKeys.length_blob (k : PrivateKeys) : k.blob.length = keyLen * 2 := by
  rw [PrivateKeys.blob, List.length_append, k.length_sign, k.length_encrypt]
  rfl

/-- What is saved is what is loaded. -/
theorem loadKeys_eq_ok_iff {key : Text} {b : Bytes} {k : PrivateKeys} :
    loadKeys key b = .ok k ↔ b = k.blob := by
  constructor
  · intro h
    unfold loadKeys at h
    split_ifs at h with hlen
    obtain rfl := Except.ok.inj h
    exact (List.take_append_drop keyLen b).symm
  · rintro rfl
    obtain ⟨s, e, hs, he⟩ := k
    rw [loadKeys, dif_pos (PrivateKeys.length_blob _)]
    simp [PrivateKeys.blob, ← hs]

/-- A failure to load names the file and what is wrong with it. -/
theorem loadKeys_eq_error_iff {key : Text} {b : Bytes} {e : Failure} :
    loadKeys key b = .error e ↔ b.length ≠ keyLen * 2 ∧ e = .wrongLength key b.length := by
  unfold loadKeys
  split_ifs with hlen
  · simp [hlen]
  · simp [hlen, eq_comm]

variable {lib : KeyLibrary} {lower : Text → Text} {repo : Text}
  {start : Text → Option (List Text)} {L : Layout}

theorem wp_readKeys {key : Text} {Q : PrivateKeys → Host → Prop} {C : Host → Prop} {w : Host} :
    (readKeys key).wp Q C w ↔
      C w ∧ ∀ f k, w.keys (components key) = some f → f.content = k.blob → Q k w := by
  simp only [readKeys, wp_bind, wp_look, wp_expect]
  constructor
  · rintro ⟨hC, -, h⟩
    refine ⟨hC, fun f k hf hk => ?_⟩
    have hw := h f hf
    rw [loadKeys_eq_ok_iff.mpr hk] at hw
    exact (wp_pure.mp hw).2
  · rintro ⟨hC, h⟩
    refine ⟨hC, hC, fun f hf => ?_⟩
    cases hload : loadKeys key f.content with
    | ok k => exact wp_pure.mpr ⟨hC, h f k hf (loadKeys_eq_ok_iff.mp hload)⟩
    | error e => exact wp_fail.mpr hC

theorem returns_readKeys {key : Text} {w : Host} {f : KeyFile} {k : PrivateKeys}
    (hf : w.keys (components key) = some f) (hk : f.content = k.blob) :
    (readKeys key).Returns w k w := by
  refine (returns_look _ _).bind ?_
  rw [hf]
  refine (returns_expect _ _ _).bind ?_
  rw [loadKeys_eq_ok_iff.mpr hk]
  exact returns_pure k w

/-! ### Directories and links -/

theorem Layout.ne_of_kind (L : Layout) {p q : Path} {k k' : Kind} (hp : L.kind p = some k)
    (hq : L.kind q = some k') (h : k ≠ k') : p ≠ q := by
  rintro rfl
  exact h (Option.some.inj (hp.symm.trans hq))

theorem wp_makedirs {dir : Path} {Q : Unit → Host → Prop} {C : Host → Prop} {w : Host} :
    (makedirs dir).wp Q C w ↔ C w ∧ ((∀ q, q <+: dir → w.isFile q = false) →
      C (w.makeDirs dir) ∧ Q () (w.makeDirs dir)) := by
  have hblocked : ¬ (dir.inits.any w.isFile = true) ↔ ∀ q, q <+: dir → w.isFile q = false := by
    simp [List.any_eq_true]
  simp only [makedirs, wp_bind, wp_look, wp_require, wp_act, hblocked]
  exact ⟨fun h => ⟨h.1, fun hfree => (h.2.2 hfree).2⟩,
    fun h => ⟨h.1, h.1, fun hfree => ⟨h.1, h.2 hfree⟩⟩⟩

theorem returns_makedirs {dir : Path} {w : Host} (h : ∀ q, q <+: dir → w.isFile q = false) :
    (makedirs dir).Returns w () (w.makeDirs dir) := by
  have hfree : ¬ (dir.inits.any w.isFile = true) := by simpa [List.any_eq_true] using h
  refine (returns_look _ _).bind ?_
  rw [require_bind hfree]
  exact returns_act _ _

theorem wp_unlink {p : Path} {Q : Unit → Host → Prop} {C : Host → Prop} {w : Host} :
    (unlink p).wp Q C w ↔ C w ∧ (w.dirs p = false → C (w.unlink p) ∧ Q () (w.unlink p)) := by
  simp only [unlink, wp_bind, wp_look, wp_require, wp_act, Bool.not_eq_true]
  exact ⟨fun h => ⟨h.1, fun hdir => (h.2.2 hdir).2⟩,
    fun h => ⟨h.1, h.1, fun hdir => ⟨h.1, h.2 hdir⟩⟩⟩

variable {p : Path} {w t : Host}

theorem Host.putKey_self (w : Host) (p : Path) (g : Option KeyFile) : (w.putKey p g).keys p = g :=
  Function.update_self _ _ _

theorem Host.putKey_of_ne (w : Host) {p q : Path} (h : q ≠ p) (g : Option KeyFile) :
    (w.putKey p g).keys q = w.keys q :=
  Function.update_of_ne h _ _

theorem Host.keys_openKey (umask : ℕ) (p : Path) (w : Host) : (w.openKey umask p).keys p =
    some ⟨[], ((w.keys p).map KeyFile.mode).getD (0o600 &&& (umask ^^^ 0o777))⟩ :=
  w.putKey_self p _

/-! ### Invariants of single effects -/

/-- What the effects keep that are not setup's or the daemon's alone. -/
structure Host.Kept (Inv : Host → Prop) : Prop where
  say : ∀ r w, Inv w → Inv (w.say r)
  unlink : ∀ p w, Inv w → Inv (w.unlink p)
  dropState : ∀ w, Inv w → Inv w.dropState

variable {Inv : Host → Prop} {is : List (Invocation × Option ℕ)}
  {os : List (Option (Except Failure Unit))} {w' : Host}

theorem keeps_readKeys (key : Text) : Keeps Inv (readKeys key) :=
  fun _ h => wp_readKeys.mpr ⟨h, fun _ _ _ _ => h⟩

theorem keeps_makedirs {dir : Path} (hdirs : ∀ w, Inv w → Inv (w.makeDirs dir)) :
    Keeps Inv (makedirs dir) :=
  fun w h => wp_makedirs.mpr ⟨h, fun _ => ⟨hdirs w h, hdirs w h⟩⟩

theorem Host.Kept.keeps_unlink (h : Host.Kept Inv) (p : Path) :
    Keeps Inv (Beachedmesh.unlink p) :=
  fun w hw => wp_unlink.mpr ⟨hw, fun _ => ⟨h.unlink p w hw, h.unlink p w hw⟩⟩

theorem keeps_controlListen (h : Host.Kept Inv) (hdirs : ∀ dir w, Inv w → Inv (w.makeDirs dir))
    (hbind : ∀ p w, Inv w → Inv (w.bindSocket p)) (socket : Text) (steps : ℕ) :
    Keeps Inv (controlListen socket steps) := by
  refine (keeps_look _).bind fun _ => Keeps.when (fun w hw => wp_forM (fun g hg t ht => ?_) hw) _
  have hstep : Inv (g t) := by
    have hmem := List.mem_of_mem_take hg
    simp only [List.mem_cons, List.not_mem_nil, or_false] at hmem
    rcases hmem with rfl | rfl | rfl
    · exact h.unlink _ t ht
    · exact hdirs _ t ht
    · exact hbind _ t ht
  exact wp_act.mpr ⟨ht, hstep, hstep⟩

theorem Host.Kept.keeps_daemonMain (h : Host.Kept Inv) {args : Args} {env : DaemonEnv}
    (hdb : args.db ≠ ":memory:".toList → Keeps Inv (makedirs (components args.db).dropLast))
    (hlisten : Keeps Inv (controlListen args.socket env.listenSteps)) :
    Keeps Inv (daemonMain lib args env) := by
  refine (keeps_require _ _).bind fun _ => (keeps_look _).bind fun _ =>
    (keeps_require _ _).bind fun _ => Keeps.when ((keeps_readKeys _).bind fun _ => ?_) _
  refine Keeps.bind (fun w hw => ?_) fun _ => hlisten.bind fun _ => keeps_act (h.say _)
  exact wp_when.mpr ⟨fun hc => hdb hc w hw, fun _ => ⟨hw, hw⟩⟩

theorem Host.Kept.keeps_daemonStop (h : Host.Kept Inv) (args : Args) :
    Keeps Inv (daemonStop args) :=
  (keeps_look _).bind fun _ => (keeps_act (h.unlink _)).when _

theorem Host.Kept.keeps_uninstallMain (h : Host.Kept Inv) (args : UninstallArgs)
    (env : UninstallEnv) : Keeps Inv (uninstallMain lib args env) := by
  refine (keeps_require _ _).bind fun _ => (keeps_look _).bind fun _ =>
    ((h.keeps_unlink _).when _).bind fun _ => (keeps_look _).bind fun _ =>
    ((h.keeps_unlink _).when _).bind fun _ => (keeps_look _).bind fun _ =>
    ((h.keeps_unlink _).when _).bind fun _ => (keeps_look _).bind fun _ =>
    Keeps.when (Keeps.bind ?_ fun _ => ?_) _
  · refine (keeps_look _).bind fun stored => ?_
    split
    · exact keeps_act (h.say _)
    · exact keeps_pure _
  · refine (keeps_look _).bind fun _ => (keeps_require _ _).bind fun _ => Keeps.bind ?_ fun _ =>
      keeps_act h.dropState
    exact fun s hs => wp_forM (fun p _ => keeps_act (h.unlink p)) hs

theorem keeps_renameIface (hrules : ∀ text w, Inv w → Inv (w.putRules text)) (iface : Text)
    (noRename : Bool) (env : SetupEnv) : Keeps Inv (renameIface lower iface noRename env) := by
  simp only [renameIface]
  split_ifs
  · exact keeps_pure _
  · exact (keeps_look _).bind fun _ => (keeps_expect _ _).bind fun _ =>
      (keeps_act (hrules _)).bind fun _ => (keeps_act (hrules _)).bind fun _ => keeps_pure _
  · exact (keeps_look _).bind fun _ => (keeps_expect _ _).bind fun _ => keeps_pure _

theorem keeps_installUnit (hunit : ∀ text w, Inv w → Inv (w.putUnit text)) (iface name : Text)
    (interval : PyFloat) (env : SetupEnv) :
    Keeps Inv (installUnit repo iface name interval env) := by
  simp only [installUnit]
  split_ifs
  · refine (keeps_expect _ _).bind fun _ => (keeps_act (hunit _)).bind fun _ =>
      (keeps_act (hunit _)).bind fun _ => ?_
    split
    · exact keeps_fail _
    · exact keeps_fail _
    · exact keeps_pure _
  · exact keeps_pure _

theorem Host.Kept.keeps_setupMain (h : Host.Kept Inv) {args : SetupArgs} {env : SetupEnv}
    (hid : Keeps Inv (setupIdentity lib args.key args.forceKeys env))
    (hunit : ∀ text w, Inv w → Inv (w.putUnit text))
    (hrules : ∀ text w, Inv w → Inv (w.putRules text)) :
    Keeps Inv (setupMain lib lower repo args env) := by
  refine (keeps_require _ _).bind fun _ => (keeps_require _ _).bind fun _ =>
    (keeps_require _ _).bind fun _ => (keeps_require _ _).bind fun _ => hid.bind fun k => ?_
  split_ifs with hno
  · exact keeps_pure _
  · exact (keeps_renameIface hrules _ _ _).bind fun _ =>
      (keeps_installUnit hunit _ _ _ _).bind fun _ => keeps_act (h.say _)

/-- So does every command, if setup keeps it, and new directories and sockets do. -/
theorem Host.Kept.command (h : Host.Kept Inv) (hdirs : ∀ dir w, Inv w → Inv (w.makeDirs dir))
    (hbind : ∀ p w, Inv w → Inv (w.bindSocket p)) {i : Invocation}
    (hsetup : ∀ args env, i = .setup args env → Keeps Inv (setupMain lib lower repo args env)) :
    Keeps Inv (i.command lib lower repo start) := by
  have hdaemon (args : Args) (env : DaemonEnv) : Keeps Inv (daemonMain lib args env) :=
    h.keeps_daemonMain (fun _ => keeps_makedirs (hdirs _)) (keeps_controlListen h hdirs hbind _ _)
  cases i with
  | setup args env => exact hsetup args env rfl
  | uninstall args env => exact h.keeps_uninstallMain args env
  | daemon args env => exact hdaemon args env
  | stop args => exact h.keeps_daemonStop args
  | service env =>
    exact (keeps_look _).bind fun _ => (keeps_expect _ _).bind fun args => hdaemon args env

theorem Host.Kept.run (h : Host.Kept Inv) (hdirs : ∀ dir w, Inv w → Inv (w.makeDirs dir))
    (hbind : ∀ p w, Inv w → Inv (w.bindSocket p)) {P : Invocation → Prop}
    (hsetup : ∀ args env, P (.setup args env) → Keeps Inv (setupMain lib lower repo args env))
    (hw : Inv w) (his : ∀ i ∈ is, P i.1)
    (hx : exec (Host.step lib lower repo start) w is = some (w', os)) : Inv w' := by
  refine machine_invariant (P := fun _ i => P i) (fun {s i} hi hs => ?_) hw
    (eachStep_of_forall (fun i hi _ => his i hi) _) hx
  have hcommand : Keeps Inv (i.command lib lower repo start) :=
    h.command hdirs hbind fun args env heq => hsetup args env (heq ▸ hi)
  exact (hcommand s hs).mono (fun _ _ _ => trivial) fun _ ht => ht

/-- Once the directory for the key file is there, more may hold than before. -/
theorem keeps_setupIdentity {Ready : Host → Prop} {key : Text}
    (hready : ∀ w, Ready w → Inv w)
    (hdirs : ∀ w, Inv w → (makedirs (components key).dropLast).wp (fun _ => Ready) Inv w)
    (hsay : ∀ r w, Ready w → Ready (w.say r))
    (hopen : ∀ umask w, Ready w → Ready (w.openKey umask (components key)))
    (hwrite : ∀ b w, b.length = keyLen * 2 → Ready w → Ready (w.writeKey (components key) b))
    (force : Bool) (env : SetupEnv) : Keeps Inv (setupIdentity lib key force env) := by
  intro w hw
  rw [setupIdentity, wp_bind]
  refine (hdirs w hw).mono (fun _ u hu => ?_) fun _ ht => ht
  refine wp.mono (Q := fun _ => Ready) (C := Ready) ?_ (fun _ => hready) hready
  refine Keeps.wp ((keeps_look _).bind fun _ => ?_) hu
  split_ifs
  · exact (keeps_readKeys _).bind fun _ => (keeps_act (hsay _)).bind fun _ => keeps_pure _
  · refine (Keeps.when ((keeps_readKeys _).bind fun _ => keeps_act (hsay _)) _).bind fun _ => ?_
    refine Keeps.bind ?_ fun _ => (keeps_look _).bind fun _ => (keeps_act (hsay _)).bind fun _ =>
      (Keeps.when (keeps_act (hsay _)) _).bind fun _ => keeps_pure _
    exact (keeps_act (hopen _)).bind fun _ =>
      keeps_act fun w => hwrite _ w env.drawn.length_blob

/-! ### Files in their places -/

/-- Nothing that is a file is above the directory of another file. -/
theorem Layout.kind_of_prefix (L : Layout) {p q : Path} (hp : L.kind p ≠ none)
    (hq : q <+: p.dropLast) : L.kind q = none := by
  by_contra hkind
  obtain rfl := L.apart hkind hp (hq.trans (List.dropLast_prefix p))
  have hlen := hq.length_le
  rw [List.length_dropLast] at hlen
  obtain rfl : q = [] := List.length_eq_zero_iff.mp (by omega)
  have hroot := L.apart hkind (by rw [L.key]; simp) (List.nil_prefix (l := components defaultKey))
  exact absurd hroot (by decide +kernel)

theorem Layout.kind_stateDir (L : Layout) : L.kind stateDir = none := by
  refine L.kind_of_prefix (p := components defaultKey) (by rw [L.key]; simp) ?_
  decide +kernel

/-- A file below the state directory is in a directory below it. -/
theorem Layout.stateDir_prefix (L : Layout) {p : Path} (hp : L.kind p ≠ none)
    (h : stateDir <+: p) : stateDir <+: p.dropLast := by
  obtain ⟨rest, rfl⟩ := h
  have hrest : rest ≠ [] := by
    rintro rfl
    exact hp (by rw [List.append_nil]; exact L.kind_stateDir)
  rw [List.dropLast_append_of_ne_nil hrest]
  exact List.prefix_append _ _

/-- The files and the directories are where they belong, and the state directory is there if
anything is in it. -/
structure Host.Placed (L : Layout) (w : Host) : Prop where
  keys : ∀ p, w.keys p ≠ none → L.kind p = some .key
  sockets : ∀ p, w.sockets p = true → L.kind p = some .socket
  dirs : ∀ p, w.dirs p = true → L.kind p = none
  housed : ∀ p, w.keys p ≠ none ∨ w.sockets p = true ∨ w.dirs p = true → stateDir <+: p →
    w.dirs stateDir = true

theorem Host.isFile_iff {p : Path} : w.isFile p = true ↔ w.keys p ≠ none ∨ w.sockets p = true ∨
    p = unitPath ∧ w.unitFile ≠ none ∨ p = rulesPath ∧ w.rules ≠ none := by
  simp [Host.isFile, Option.isSome_iff_ne_none, or_assoc]

theorem Host.keys_of_unlink {q : Path} (h : (w.unlink p).keys q ≠ none) : w.keys q ≠ none := by
  by_cases heq : q = p
  · subst heq
    exact absurd (Function.update_self ..) h
  · rwa [show (w.unlink p).keys q = w.keys q from Function.update_of_ne heq ..] at h

theorem Host.sockets_of_unlink {q : Path} (h : (w.unlink p).sockets q = true) :
    w.sockets q = true := by
  by_cases heq : q = p
  · subst heq
    rw [show (w.unlink q).sockets q = false from Function.update_self ..] at h
    cases h
  · rwa [show (w.unlink p).sockets q = w.sockets q from Function.update_of_ne heq ..] at h

namespace Host.Placed

theorem kind_of_isFile (h : w.Placed L) (hp : w.isFile p = true) : L.kind p ≠ none := by
  rcases Host.isFile_iff.mp hp with hkey | hsocket | ⟨rfl, -⟩ | ⟨rfl, -⟩
  · simp [h.keys p hkey]
  · simp [h.sockets p hsocket]
  · simp [L.unit]
  · simp [L.rules]

/-- No file is in the way of a directory. -/
theorem free (h : w.Placed L) (hp : L.kind p ≠ none) :
    ∀ q, q <+: p.dropLast → w.isFile q = false := by
  intro q hq
  by_contra hfile
  exact h.kind_of_isFile (Bool.eq_true_of_not_eq_false hfile) (L.kind_of_prefix hp hq)

/-- Fewer key files and sockets, and more directories. -/
theorem mono (h : w.Placed L) (hkeys : ∀ p, t.keys p ≠ none → w.keys p ≠ none)
    (hsockets : ∀ p, t.sockets p = true → w.sockets p = true)
    (hdirs : ∀ p, t.dirs p = true → w.dirs p = true ∨
      L.kind p = none ∧ (stateDir <+: p → t.dirs stateDir = true))
    (hstate : w.dirs stateDir = true → t.dirs stateDir = true) : t.Placed L where
  keys p hp := h.keys p (hkeys p hp)
  sockets p hp := h.sockets p (hsockets p hp)
  dirs p hp := (hdirs p hp).elim (h.dirs p) And.left
  housed := by
    intro p hp hbelow
    rcases hp with hp | hp | hp
    · exact hstate (h.housed p (Or.inl (hkeys p hp)) hbelow)
    · exact hstate (h.housed p (Or.inr (Or.inl (hsockets p hp))) hbelow)
    · rcases hdirs p hp with hdir | hnew
      · exact hstate (h.housed p (Or.inr (Or.inr hdir)) hbelow)
      · exact hnew.2 hbelow

theorem of_eq (h : w.Placed L) (hkeys : t.keys = w.keys) (hsockets : t.sockets = w.sockets)
    (hdirs : t.dirs = w.dirs) : t.Placed L :=
  h.mono (fun _ hp => hkeys ▸ hp) (fun _ hp => hsockets ▸ hp) (fun _ hp => Or.inl (hdirs ▸ hp))
    fun hp => hdirs ▸ hp

theorem unlink (h : w.Placed L) (p : Path) : (w.unlink p).Placed L :=
  h.mono (fun _ => keys_of_unlink) (fun _ => sockets_of_unlink) (fun _ hq => Or.inl hq) id

theorem makeDirs (h : w.Placed L) (hp : L.kind p ≠ none) : (w.makeDirs p.dropLast).Placed L := by
  refine h.mono (fun _ hq => hq) (fun _ hq => hq) (fun q hq => ?_) fun hstate => ?_
  · have hor : w.dirs q = true ∨ q <+: p.dropLast := by
      simpa [Host.makeDirs, List.isPrefixOf_iff_prefix] using hq
    refine hor.imp_right fun hprefix => ⟨L.kind_of_prefix hp hprefix, fun hbelow => ?_⟩
    simp [Host.makeDirs, List.isPrefixOf_iff_prefix.mpr (hbelow.trans hprefix)]
  · simp [Host.makeDirs, hstate]

/-- The directory of a file is there once it has been made. -/
theorem dirs_makeDirs (hp : L.kind p ≠ none) (w : Host) (hbelow : stateDir <+: p) :
    (w.makeDirs p.dropLast).dirs stateDir = true := by
  simp [Host.makeDirs, List.isPrefixOf_iff_prefix.mpr (L.stateDir_prefix hp hbelow)]

theorem sockets_bindSocket (w : Host) {q : Path} (h : q ≠ p) :
    (w.bindSocket p).sockets q = w.sockets q := Function.update_of_ne h _ _

theorem bindSocket (h : w.Placed L) (hp : L.kind p = some .socket)
    (hdir : stateDir <+: p → w.dirs stateDir = true) : (w.bindSocket p).Placed L where
  keys := h.keys
  sockets := by
    intro q hq
    by_cases heq : q = p
    · exact heq ▸ hp
    · exact h.sockets q (sockets_bindSocket w heq ▸ hq)
  dirs := h.dirs
  housed := by
    intro q hq hbelow
    by_cases heq : q = p
    · exact hdir (heq ▸ hbelow)
    · exact h.housed q (hq.imp_right (Or.imp_left fun hs => sockets_bindSocket w heq ▸ hs))
        hbelow

theorem putKey (h : w.Placed L) (hp : L.kind p = some .key)
    (hdir : stateDir <+: p → w.dirs stateDir = true) (g : Option KeyFile) :
    (w.putKey p g).Placed L where
  keys := by
    intro q hq
    by_cases heq : q = p
    · exact heq ▸ hp
    · exact h.keys q (w.putKey_of_ne heq g ▸ hq)
  sockets := h.sockets
  dirs := h.dirs
  housed := by
    intro q hq hbelow
    by_cases heq : q = p
    · exact hdir (heq ▸ hbelow)
    · exact h.housed q (hq.imp_left fun hkey => w.putKey_of_ne heq g ▸ hkey) hbelow

theorem dropState (h : w.Placed L) : w.dropState.Placed L where
  keys p hp := h.keys p fun hnone => hp (by simp [Host.dropState, hnone])
  sockets p hp := h.sockets p (Bool.and_eq_true_iff.mp hp).2
  dirs p hp := h.dirs p (Bool.and_eq_true_iff.mp hp).2
  housed := by
    intro p hp hbelow
    simp [Host.dropState, hbelow, List.isPrefixOf_iff_prefix.mpr hbelow] at hp

end Host.Placed

/-- In the place of a key file there is nothing else. -/
theorem Host.Placed.not_exists (h : w.Placed L) (hp : L.kind p = some .key)
    (hnone : w.keys p = none) : w.pathExists p = false := by
  have hfile : w.isFile p = false := by
    by_contra hfile
    rcases Host.isFile_iff.mp (Bool.eq_true_of_not_eq_false hfile) with
      hkey | hsocket | ⟨rfl, -⟩ | ⟨rfl, -⟩
    · exact hkey hnone
    · exact L.ne_of_kind hp (h.sockets p hsocket) (by decide) rfl
    · exact L.ne_of_kind hp L.unit (by decide) rfl
    · exact L.ne_of_kind hp L.rules (by decide) rfl
  have hdir : w.dirs p = false := by
    by_contra hdir
    simp [h.dirs p (Bool.eq_true_of_not_eq_false hdir)] at hp
  rw [Host.pathExists, hfile, hdir]
  rfl

theorem placed_kept (L : Layout) : Host.Kept (Host.Placed L) where
  say _ _ h := h.of_eq rfl rfl rfl
  unlink p _ h := h.unlink p
  dropState _ h := h.dropState

theorem placed_makedirs (hp : L.kind p ≠ none) : Keeps (Host.Placed L) (makedirs p.dropLast) :=
  keeps_makedirs fun _ h => h.makeDirs hp

/-- The directory for a key file is there. -/
def Host.Ready (L : Layout) (p : Path) (w : Host) : Prop :=
  w.Placed L ∧ (stateDir <+: p → w.dirs stateDir = true)

theorem placed_setupIdentity {key : Text} (hkey : L.kind (components key) = some .key)
    (force : Bool) (env : SetupEnv) :
    Keeps (Host.Placed L) (setupIdentity lib key force env) := by
  have hne : L.kind (components key) ≠ none := by simp [hkey]
  refine keeps_setupIdentity (fun w (h : w.Ready L (components key)) => h.1) (fun w h => ?_)
    (fun _ _ h => ⟨h.1.of_eq rfl rfl rfl, h.2⟩) (fun _ _ h => ⟨h.1.putKey hkey h.2 _, h.2⟩)
    (fun _ _ _ h => ⟨h.1.putKey hkey h.2 _, h.2⟩) force env
  have hmade := h.makeDirs hne
  exact wp_makedirs.mpr ⟨h, fun _ => ⟨hmade, hmade, Host.Placed.dirs_makeDirs hne w⟩⟩

theorem placed_controlListen {socket : Text} (hsocket : L.kind (components socket) = some .socket)
    (steps : ℕ) : Keeps (Host.Placed L) (controlListen socket steps) := by
  intro w h
  have hne : L.kind (components socket) ≠ none := by simp [hsocket]
  have hgone := h.unlink (components socket)
  have hmade := hgone.makeDirs hne
  have hbound := hmade.bindSocket hsocket (Host.Placed.dirs_makeDirs hne _)
  simp only [controlListen, wp_bind, wp_look, wp_when]
  refine ⟨h, fun _ => ?_, fun _ => ⟨h, h⟩⟩
  -- however many of the three steps are done
  rcases steps with _ | _ | _ | n
  · exact wp_pure.mpr ⟨h, h⟩
  · exact wp_bind.mpr (wp_act.mpr ⟨h, hgone, wp_pure.mpr ⟨hgone, hgone⟩⟩)
  · exact wp_bind.mpr (wp_act.mpr ⟨h, hgone, wp_bind.mpr (wp_act.mpr ⟨hgone, hmade,
      wp_pure.mpr ⟨hmade, hmade⟩⟩)⟩)
  · rw [List.take_succ_cons, List.take_succ_cons, List.take_succ_cons, List.take_nil]
    exact wp_bind.mpr (wp_act.mpr ⟨h, hgone, wp_bind.mpr (wp_act.mpr ⟨hgone, hmade,
      wp_bind.mpr (wp_act.mpr ⟨hmade, hbound, wp_pure.mpr ⟨hbound, hbound⟩⟩)⟩)⟩)

theorem Args.Respects.database_kind {args : Args} (h : args.Respects L)
    (hdb : args.db ≠ ":memory:".toList) : L.kind (components args.db) ≠ none := by
  have hmem : components args.db ∈ databaseFiles args.db := by
    simp [databaseFiles]
  rw [(h.database.resolve_left hdb).2 _ hmem]
  simp

theorem placed_daemonMain {args : Args} (h : args.Respects L) (env : DaemonEnv) :
    Keeps (Host.Placed L) (daemonMain lib args env) :=
  (placed_kept L).keeps_daemonMain (fun hdb => placed_makedirs (h.database_kind hdb))
    (placed_controlListen h.socket _)

/-- A command that respects the layout leaves everything in its place. -/
theorem placed_command (h : w.Placed L) {i : Invocation} (hi : i.Respects repo start L w) :
    (i.command lib lower repo start).wp (fun _ => Host.Placed L) (Host.Placed L) w := by
  cases i with
  | setup args env =>
    have hid : Keeps (Host.Placed L) (setupIdentity lib args.key args.forceKeys env) :=
      placed_setupIdentity hi.2 _ _
    exact (placed_kept L).keeps_setupMain hid (fun _ _ ht => ht.of_eq rfl rfl rfl)
      (fun _ _ ht => ht.of_eq rfl rfl rfl) w h
  | uninstall args env => exact (placed_kept L).keeps_uninstallMain args env w h
  | daemon args env => exact placed_daemonMain hi env w h
  | stop args => exact (placed_kept L).keeps_daemonStop args w h
  | service env =>
    rw [Invocation.command, serviceStart]
    simp only [wp_bind, wp_look, wp_expect]
    exact ⟨h, h, fun args hargs => placed_daemonMain (hi args hargs) env w h⟩

/-! ### Whole runs -/

theorem runs_placed (hw : w.Placed L)
    (his : EachStep (Host.step lib lower repo start) (fun s i => i.1.Respects repo start L s) w is)
    (hx : exec (Host.step lib lower repo start) w is = some (w', os)) : w'.Placed L := by
  refine machine_invariant (P := fun s (i : Invocation) => i.Respects repo start L s)
    (fun {s i} hi hs => ?_) hw his hx
  exact (placed_command hs hi).mono (fun _ _ _ => trivial) fun _ h => h

theorem placed_fresh : Host.fresh.Placed sampleLayout where
  keys _ hp := absurd rfl hp
  sockets _ hp := by cases hp
  dirs p hp := by
    have hall : freshDirs.all fun dir => dir.inits.all fun q => sampleLayout.kind q = none := by
      decide +kernel
    obtain ⟨dir, hdir, hprefix⟩ := List.any_eq_true.mp hp
    have hnone := List.all_eq_true.mp (List.all_eq_true.mp hall dir hdir) p
      ((List.mem_inits ..).mpr (List.isPrefixOf_iff_prefix.mp hprefix))
    simpa using hnone
  housed p hp hbelow := by
    have hall : freshDirs.all fun dir => ! stateDir.isPrefixOf dir := by decide +kernel
    rcases hp with hp | hp | hp
    · exact absurd rfl hp
    · cases hp
    · obtain ⟨dir, hdir, hprefix⟩ := List.any_eq_true.mp hp
      have hnot := List.all_eq_true.mp hall dir hdir
      have hunder := hbelow.trans (List.isPrefixOf_iff_prefix.mp hprefix)
      simp [List.isPrefixOf_iff_prefix.mpr hunder] at hnot

end Beachedmesh
