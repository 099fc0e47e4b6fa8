import Beachedmesh.AdapterNames
import Beachedmesh.Identity
import Beachedmesh.Service
import Beachedmesh.Support.Script

/-!
# The life of a node on its machine

`beachedmesh-setup`, `beachedmesh-uninstall` and the daemon act on the files of one
machine: the key files, the unit file, the rules file and the control socket. Each of
them is a script, killed anywhere or not. A system call that fails ends a command where
a kill would. A path stands for its file: what is proved takes key files, unit file, rules
file, sockets and databases for different files, given by normalized absolute paths, with no
links among them.
-/
namespace Beachedmesh
open PyText Words Script Machine

/-! ### Keys and their file -/

/-- The library behind an identity: the hash, and what a private half gives. -/
structure KeyLibrary extends Crypto where
  signPub : Bytes → Bytes
  encryptPub : Bytes → Bytes
  sign : Bytes → Bytes → Bytes
  length_sha256 : ∀ b, (sha256 b).length = 32

/-- The raw bytes of the two private halves. -/
structure PrivateKeys where
  sign : Bytes
  encrypt : Bytes
  length_sign : sign.length = keyLen
  length_encrypt : encrypt.length = keyLen

def PrivateKeys.identity (lib : KeyLibrary) (k : PrivateKeys) : Identity where
  nodeId := ⟨nodeIdFromKey lib.toCrypto (lib.signPub k.sign), by
    rw [nodeIdFromKey, List.length_take, lib.length_sha256]
    rfl⟩
  signPub := lib.signPub k.sign
  encryptPub := lib.encryptPub k.encrypt
  sign := lib.sign k.sign

/-- `blob` of `Identity.save`. -/
def PrivateKeys.blob (k : PrivateKeys) : Bytes := k.sign ++ k.encrypt

/-- Why a command ends early. -/
inductive Failure where
  | setupNotRoot
  | ifaceRequired
  | noCryptography
  | noIw
  | wrongLength (key : Text) (length : ℕ)
  | cannotOpen (key : Text)
  | notADirectory
  | isADirectory
  | badRules
  | badInterval
  | enableFailed (stderr : Text)
  | restartFailed (stderr : Text)
  | uninstallNotRoot
  | daemonNotRoot
  | noIdentity (key : Text)
  | notStarted
  deriving DecidableEq

/-- `Identity.load`, of what the file holds. -/
def loadKeys (key : Text) (blob : Bytes) : Except Failure PrivateKeys :=
  if h : blob.length = keyLen * 2 then
    .ok ⟨blob.take keyLen, blob.drop keyLen, by rw [List.length_take, h]; rfl,
      by rw [List.length_drop, h]; rfl⟩
  else .error (.wrongLength key blob.length)

/-! ### The machine's files -/

/-- A file by its way from the root. -/
abbrev Path := List Text

def components (t : Text) : Path := (t.splitOn '/').filter (· ≠ [])

/-- A normalized absolute path. Where there are no links, such a text names the file that is
at its components. -/
structure Normal (t : Text) : Prop where
  eq : t = '/' :: ['/'].intercalate (components t)
  ne_nil : components t ≠ []
  named : ∀ c ∈ components t, c ≠ ['.'] ∧ c ≠ ['.', '.']

instance : DecidablePred Normal := fun t =>
  decidable_of_iff (t = '/' :: ['/'].intercalate (components t) ∧ components t ≠ [] ∧
    ∀ c ∈ components t, c ≠ ['.'] ∧ c ≠ ['.', '.'])
    ⟨fun ⟨h₁, h₂, h₃⟩ => ⟨h₁, h₂, h₃⟩, fun h => ⟨h.eq, h.ne_nil, h.named⟩⟩

def stateDir : Path := components "/var/lib/beachedmesh".toList

def unitPath : Path := components "/etc/systemd/system/beachedmesh.service".toList

def rulesPath : Path := components "/etc/udev/rules.d/70-beachedmesh-net.rules".toList

def controlSocket : Path := components Args.defaults.socket

def defaultKey : Text := Args.defaults.key

structure KeyFile where
  content : Bytes
  mode : ℕ
  deriving DecidableEq

/-- What a line of output says about the identity in a key file. -/
inductive Saying where
  | existing
  | replacing
  | generated
  | node
  | running
  | deleting
  deriving DecidableEq

inductive Report where
  | identity (saying : Saying) (path : Path) (nodeId : NodeId)
  | readable (path : Path) (mode : ℕ)
  deriving DecidableEq

def Report.path : Report → Path
  | .identity _ p _ => p
  | .readable p _ => p

/-- The files that the commands work on, and what they have printed so far. The unit file and
the rules file are the ones at their paths; the databases are left out. -/
structure Host where
  keys : Path → Option KeyFile
  sockets : Path → Bool
  dirs : Path → Bool
  unitFile : Option Text
  rules : Option Text
  said : List Report

namespace Host

def isFile (p : Path) (w : Host) : Bool :=
  (w.keys p).isSome || w.sockets p || (p = unitPath && w.unitFile.isSome) ||
    (p = rulesPath && w.rules.isSome)

/-- `os.path.exists`. -/
def pathExists (p : Path) (w : Host) : Bool := w.isFile p || w.dirs p

def say (r : Report) (w : Host) : Host := { w with said := w.said ++ [r] }

/-- `os.makedirs(..., exist_ok=True)`, where no file is in the way, in one step. -/
def makeDirs (dir : Path) (w : Host) : Host :=
  { w with dirs := fun p => w.dirs p || p.isPrefixOf dir }

def putKey (p : Path) (f : Option KeyFile) (w : Host) : Host :=
  { w with keys := Function.update w.keys p f }

/-- `os.open` to write, with a mode that counts for a new file only. -/
def openKey (umask : ℕ) (p : Path) (w : Host) : Host :=
  w.putKey p (some ⟨[], ((w.keys p).map KeyFile.mode).getD (0o600 &&& (umask ^^^ 0o777))⟩)

def writeKey (p : Path) (b : Bytes) (w : Host) : Host :=
  w.putKey p ((w.keys p).map fun f => { f with content := b })

def putUnit (text : Option Text) (w : Host) : Host := { w with unitFile := text }

def putRules (text : Option Text) (w : Host) : Host := { w with rules := text }

/-- `bind` of a socket. -/
def bindSocket (p : Path) (w : Host) : Host :=
  { w with sockets := Function.update w.sockets p true }

/-- `os.unlink`, whatever file is there. -/
def unlink (p : Path) (w : Host) : Host :=
  { w with
    keys := Function.update w.keys p none
    sockets := Function.update w.sockets p false
    unitFile := if p = unitPath then none else w.unitFile
    rules := if p = rulesPath then none else w.rules }

/-- The last steps of `shutil.rmtree(STATE_DIR)`, which find directories only. -/
def dropState (w : Host) : Host :=
  { w with
    keys := fun p => if Beachedmesh.stateDir <+: p then none else w.keys p
    sockets := fun p => ! Beachedmesh.stateDir.isPrefixOf p && w.sockets p
    dirs := fun p => ! Beachedmesh.stateDir.isPrefixOf p && w.dirs p }

end Host

/-- A command, from the files to the files. -/
abbrev Command := Script Host Failure

def makedirs (dir : Path) : Command Unit := do
  let blocked ← look fun w : Host => dir.inits.any w.isFile
  require (¬ blocked) .notADirectory
  act (Host.makeDirs dir)

def unlink (p : Path) : Command Unit := do
  let dir ← look fun w : Host => w.dirs p
  require (¬ dir) .isADirectory
  act (Host.unlink p)

def readKeys (key : Text) : Command PrivateKeys := do
  let stored ← look fun w : Host => w.keys (components key)
  let file ← expect (.cannotOpen key) stored
  match loadKeys key file.content with
  | .ok keys => pure keys
  | .error e => fail e

/-- `Identity.save`. -/
def saveKeys (key : Text) (umask : ℕ) (k : PrivateKeys) : Command Unit := do
  act (Host.openKey umask (components key))
  act (Host.writeKey (components key) k.blob)

/-! ### Setup -/

structure SetupArgs where
  iface : Option Text
  name : Text
  key : Text
  interval : PyFloat
  noService : Bool
  forceKeys : Bool
  noRename : Bool

/-- What setup finds: who runs it, what is installed, the keys that it would draw, the
adapters, and what `systemctl` answers. -/
structure SetupEnv where
  isRoot : Bool
  cryptography : Bool
  iw : Bool
  umask : ℕ
  drawn : PrivateKeys
  present : Finset Text
  address : Option Text
  ip : Bool
  renamed : Bool
  systemd : Bool
  enable : Option Text
  restart : Option Text

variable (lib : KeyLibrary) (lower : Text → Text) (repo : Text)

/-- The end of `setup_identity`, with fresh keys. -/
def generateIdentity (key : Text) (env : SetupEnv) : Command PrivateKeys := do
  saveKeys key env.umask env.drawn
  let mode ← look fun w : Host => ((w.keys (components key)).map KeyFile.mode).getD 0
  act (Host.say (.identity .generated (components key) (env.drawn.identity lib).nodeId))
  when (mode &&& 0o077 ≠ 0) (act (Host.say (.readable (components key) mode)))
  pure env.drawn

def setupIdentity (key : Text) (force : Bool) (env : SetupEnv) : Command PrivateKeys := do
  makedirs (components key).dropLast
  let stored ← look (Host.pathExists (components key))
  if stored ∧ ¬ force then
    let keys ← readKeys key
    act (Host.say (.identity .existing (components key) (keys.identity lib).nodeId))
    pure keys
  else
    when (force ∧ stored) do
      let old ← readKeys key
      act (Host.say (.identity .replacing (components key) (old.identity lib).nodeId))
    generateIdentity lib key env

/-- `rename_iface`: the name that the service should use. -/
def renameIface (iface : Text) (noRename : Bool) (env : SetupEnv) : Command Text := do
  let mac := (env.address.map fun t => lower (stripChars t)).getD []
  if noRename ∨ ifacePrefix.isPrefixOf iface ∨ iface ∉ env.present ∨ mac = [] ∨ ¬ env.ip then
    pure iface
  else
    let file ← look Host.rules
    let after ← expect .badRules (setup lower file ⟨mac, env.present, env.renamed⟩)
    if env.renamed then
      act (Host.putRules (some []))
      act (Host.putRules after.1)
      pure after.2
    else
      pure iface

/-- `install_service`: whether it started the service. -/
def installUnit (iface name : Text) (interval : PyFloat) (env : SetupEnv) : Command Bool := do
  if env.systemd then
    let text ← expect .badInterval (installService repo iface name interval)
    act (Host.putUnit (some []))
    act (Host.putUnit (some text))
    match env.enable, env.restart with
    | some stderr, _ => fail (.enableFailed stderr)
    | none, some stderr => fail (.restartFailed stderr)
    | none, none => pure true
  else
    pure false

def setupMain (args : SetupArgs) (env : SetupEnv) : Command Unit := do
  require env.isRoot .setupNotRoot
  require (args.noService ∨ args.iface.getD [] ≠ []) .ifaceRequired
  require env.cryptography .noCryptography
  require env.iw .noIw
  let keys ← setupIdentity lib args.key args.forceKeys env
  if args.noService then
    pure ()
  else
    let iface ← renameIface lower (args.iface.getD []) args.noRename env
    let _started ← installUnit repo iface args.name args.interval env
    act (Host.say (.identity .node (components args.key) (keys.identity lib).nodeId))

/-! ### Uninstall -/

structure UninstallArgs where
  purge : Bool
  dryRun : Bool

/-- `order` is the order in which `shutil.rmtree` meets the files. -/
structure UninstallEnv where
  isRoot : Bool
  systemctl : Bool
  order : List Path

/-- `shutil.rmtree(STATE_DIR)`. -/
def removeState (order : List Path) : Command Unit := do
  let dir ← look fun w : Host => w.dirs stateDir
  require dir .notADirectory
  (order.filter fun p => stateDir.isPrefixOf p).forM fun p => act (Host.unlink p)
  act Host.dropState

/-- What is said of the identity before it is deleted; nothing if it cannot be read. -/
def announceDeletion : Command Unit := do
  let stored ← look fun w : Host => w.keys (components defaultKey)
  match stored.map fun f => loadKeys defaultKey f.content with
  | some (.ok keys) =>
    act (Host.say (.identity .deleting (components defaultKey) (keys.identity lib).nodeId))
  | _ => pure ()

def uninstallMain (args : UninstallArgs) (env : UninstallEnv) : Command Unit := do
  require (env.isRoot ∨ args.dryRun) .uninstallNotRoot
  let unit ← look (Host.pathExists unitPath)
  when (env.systemctl ∧ unit ∧ ¬ args.dryRun) (unlink unitPath)
  let socket ← look (Host.pathExists controlSocket)
  when (socket ∧ ¬ args.dryRun) (unlink controlSocket)
  let rules ← look (Host.pathExists rulesPath)
  when (rules ∧ ¬ args.dryRun) (unlink rulesPath)
  let state ← look (Host.pathExists stateDir)
  when (args.purge ∧ state ∧ ¬ args.dryRun) do
    announceDeletion lib
    removeState env.order

/-! ### The daemon -/

/-- Who runs the daemon, whether the adapter came up before a stop request, and how many
steps `_listen` gets done before a call fails, if one does. -/
structure DaemonEnv where
  isRoot : Bool
  broughtUp : Bool
  listenSteps : ℕ

/-- `ControlServer._listen`, from which no error gets out. -/
def controlListen (socket : Text) (steps : ℕ) : Command Unit := do
  let dir ← look fun w : Host => w.dirs (components socket)
  when (¬ dir) <| ([Host.unlink (components socket), Host.makeDirs (components socket).dropLast,
    Host.bindSocket (components socket)].take steps).forM act

/-- The daemon up to its loop. -/
def daemonMain (args : Args) (env : DaemonEnv) : Command Unit := do
  require env.isRoot .daemonNotRoot
  let stored ← look (Host.pathExists (components args.key))
  require stored (.noIdentity args.key)
  when env.broughtUp do
    let keys ← readKeys args.key
    when (args.db ≠ ":memory:".toList) (makedirs (components args.db).dropLast)
    controlListen args.socket env.listenSteps
    act (Host.say (.identity .running (components args.key) (keys.identity lib).nodeId))

/-- `control.close()`, when the loop ends. -/
def daemonStop (args : Args) : Command Unit := do
  let dir ← look fun w : Host => w.dirs (components args.socket)
  when (¬ dir) (act (Host.unlink (components args.socket)))

/-! ### What `systemd` starts -/

/-- The path of a program that `systemd` takes as it stands. -/
structure Executable (word : Text) : Prop where
  normal : Normal word
  plain : Plain word
  safe : ∀ c ∈ word, ' ' < c ∧ c ≠ '%' ∧ c ≠ '$' ∧ c ≠ '\x7f'

/-- An argument in which nothing is expanded and that does not end the command. -/
structure Literal (word : Text) : Prop where
  percent : '%' ∉ word
  dollar : '$' ∉ word
  semicolon : word ≠ [';'] ∧ word ≠ ['\\', ';']

instance : DecidablePred Literal := fun word =>
  decidable_of_iff ('%' ∉ word ∧ '$' ∉ word ∧ word ≠ [';'] ∧ word ≠ ['\\', ';'])
    ⟨fun ⟨h₁, h₂, h₃⟩ => ⟨h₁, h₂, h₃⟩, fun h => ⟨h.percent, h.dollar, h.semicolon⟩⟩

/-- What `systemd` makes of a line: the words, where they are to be passed on as they are. -/
structure Starter (known : Text → Prop) (start : Text → Option (List Text)) : Prop where
  start : ∃ split, Splitter known split ∧ ∀ {line word argv},
    split line = some (word :: argv) → Executable word → (∀ w ∈ argv, Literal w) →
      start line = some (word :: argv)

/-- What the unit file makes `systemd` run. -/
def unitArgs (start : Text → Option (List Text)) (file : Option Text) : Option Args :=
  (file.bind execStartLine).bind fun line =>
    match start line with
    | some (word :: argv) => if word = program repo then parseArgs argv else none
    | _ => none

/-- `systemd` starts the unit. -/
def serviceStart (start : Text → Option (List Text)) (env : DaemonEnv) : Command Unit := do
  let file ← look Host.unitFile
  let args ← expect .notStarted (unitArgs repo start file)
  daemonMain lib args env

/-! ### Runs -/

inductive Invocation where
  | setup (args : SetupArgs) (env : SetupEnv)
  | uninstall (args : UninstallArgs) (env : UninstallEnv)
  | daemon (args : Args) (env : DaemonEnv)
  | stop (args : Args)
  | service (env : DaemonEnv)

def Invocation.command (start : Text → Option (List Text)) : Invocation → Command Unit
  | .setup args env => setupMain lib lower repo args env
  | .uninstall args env => uninstallMain lib args env
  | .daemon args env => daemonMain lib args env
  | .stop args => daemonStop args
  | .service env => serviceStart lib repo start env

/-- One command after another, each of them cut or not. -/
def Host.step (start : Text → Option (List Text)) :
    Host → Invocation × Option ℕ → Option (Host × Option (Except Failure Unit)) :=
  machine (Invocation.command lib lower repo start)

/-! ### Files of their own -/

inductive Kind where
  | key
  | socket
  | database
  | unit
  | rules
  deriving DecidableEq

/-- The files that `sqlite` uses for a database. -/
def databaseFiles (db : Text) : List Path :=
  ["", "-journal", "-wal", "-shm"].map fun s => components (db ++ s.toList)

/-- What the files are for: each path is for one kind of file, and no file is to lie below
another. -/
structure Layout where
  kind : Path → Option Kind
  key : kind (components defaultKey) = some .key
  socket : kind controlSocket = some .socket
  database : ∀ p ∈ databaseFiles Args.defaults.db, kind p = some .database
  unit : kind unitPath = some .unit
  rules : kind rulesPath = some .rules
  apart : ∀ {p q}, kind p ≠ none → kind q ≠ none → p <+: q → p = q

/-- The daemon is told to use files of the right kinds. -/
structure Args.Respects (L : Layout) (args : Args) : Prop where
  normal : Normal args.key ∧ Normal args.socket
  key : L.kind (components args.key) = some .key
  socket : L.kind (components args.socket) = some .socket
  database : args.db = ":memory:".toList ∨
    Normal args.db ∧ ∀ p ∈ databaseFiles args.db, L.kind p = some .database

/-- So is the command, on this machine. -/
def Invocation.Respects (start : Text → Option (List Text)) (L : Layout) (w : Host) :
    Invocation → Prop
  | .setup args _ => Normal args.key ∧ L.kind (components args.key) = some .key
  | .uninstall .. => True
  | .daemon args _ | .stop args => args.Respects L
  | .service _ => ∀ args, unitArgs repo start w.unitFile = some args → args.Respects L

/-! ### One machine -/

/-- The private halves of the keys of `sampleNode`. -/
def sampleKeys : PrivateKeys where
  sign :=
    [0x9d, 0x61, 0xb1, 0x9d, 0xef, 0xfd, 0x5a, 0x60, 0xba, 0x84, 0x4a, 0xf4, 0x92, 0xec, 0x2c, 0xc4,
     0x44, 0x49, 0xc5, 0x69, 0x7b, 0x32, 0x69, 0x19, 0x70, 0x3b, 0xac, 0x03, 0x1c, 0xae, 0x7f, 0x60]
  encrypt := List.replicate keyLen 2
  length_sign := rfl
  length_encrypt := rfl

/-- What the real primitives answer on them. -/
def sampleLibrary : KeyLibrary where
  sha256 b := if b = samplePub then samplePubHash else List.replicate 32 0
  verify := sampleCrypto.verify
  signPub k := if k = sampleKeys.sign then samplePub else List.replicate keyLen 0
  encryptPub k := if k = sampleKeys.encrypt then sampleEncryptPub else List.replicate keyLen 0
  sign _ := lineIdentity.sign
  length_sha256 b := by
    split_ifs
    · rfl
    · rfl

def lowerLatin (t : Text) : Text := t.map Char.toLower

def otherKey : Text := "/root/other.key".toList

/-- The default files, and a key file in another place. -/
def sampleKinds : List (Path × Kind) :=
  [(components defaultKey, .key), (components otherKey, .key), (controlSocket, .socket),
    (unitPath, .unit), (rulesPath, .rules)] ++
    (databaseFiles Args.defaults.db).map fun p => (p, .database)

def sampleLayout : Layout where
  kind p := (sampleKinds.find? fun e => e.1 = p).map Prod.snd
  key := by decide +kernel
  socket := by decide +kernel
  database := by decide +kernel
  unit := by decide +kernel
  rules := by decide +kernel
  apart := by
    have hall : sampleKinds.all fun e => sampleKinds.all fun e' =>
        ! e.1.isPrefixOf e'.1 || e.1 = e'.1 := by decide +kernel
    have hmem {p : Path} (hp : (sampleKinds.find? fun e => e.1 = p).map Prod.snd ≠ none) :
        ∃ e ∈ sampleKinds, e.1 = p := by
      simpa [List.find?_eq_none] using hp
    intro p q hp hq hprefix
    obtain ⟨e, he, rfl⟩ := hmem hp
    obtain ⟨e', he', rfl⟩ := hmem hq
    have hpair := List.all_eq_true.mp (List.all_eq_true.mp hall e he) e' he'
    simpa [List.isPrefixOf_iff_prefix.mpr hprefix] using hpair

theorem respects_defaults : Args.defaults.Respects sampleLayout where
  normal := ⟨by decide +kernel, by decide +kernel⟩
  key := by decide +kernel
  socket := by decide +kernel
  database := Or.inr ⟨by decide +kernel, by decide +kernel⟩

def freshDirs : List Path :=
  ["/var/lib", "/etc/systemd/system", "/etc/udev/rules.d", "/run", "/root"].map fun s =>
    components s.toList

/-- A machine on which nothing is installed. -/
def Host.fresh : Host where
  keys _ := none
  sockets _ := false
  dirs p := freshDirs.any p.isPrefixOf
  unitFile := none
  rules := none
  said := []

def sampleSetup : SetupArgs where
  iface := some "wlan1".toList
  name := "pi4".toList
  key := defaultKey
  interval := .finite announceInterval
  noService := false
  forceKeys := false
  noRename := false

def sampleEnv : SetupEnv where
  isRoot := true
  cryptography := true
  iw := true
  umask := 0o022
  drawn := sampleKeys
  present := ∅
  address := none
  ip := true
  renamed := true
  systemd := true
  enable := none
  restart := none

/-- A `systemd` that refuses what it would have to expand. -/
def startBare (line : Text) : Option (List Text) :=
  (splitBare line).filter fun ws => ws.all fun w => Literal w

def sampleStep : Host → Invocation × Option ℕ → Option (Host × Option (Except Failure Unit)) :=
  Host.step sampleLibrary lowerLatin "/opt/wifipi".toList startBare

example : (sampleKeys.identity sampleLibrary).nodeId = sampleNode := rfl

end Beachedmesh
