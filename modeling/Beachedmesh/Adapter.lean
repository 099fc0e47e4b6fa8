import Beachedmesh.Control
import Beachedmesh.Link
import Beachedmesh.Support.Calls
import Beachedmesh.Support.PyText

/-!
# The adapter and its driver

The checks on the adapter, the way into monitor mode, the listening test and the reload of
the driver: what the daemon and the tools ask of the machine, call by call. What
the machine answers is anything at all.
-/
namespace Beachedmesh
open PyText Script

/-! ### Calls -/

/-- A finished command. -/
structure Ran where
  returncode : ℤ
  stdout : Text
  stderr : Text

/-- What `select` and `recv` come to: nothing until the time is up, so many bytes, or an
`OSError`. -/
inductive Reception where
  | nothing
  | bytes (n : ℕ)
  | error

/-- What a raw socket meets: the reading that the deadline is counted from, and for each
turn the reading of the clock and what is heard. -/
structure Listening where
  start : ℚ
  turns : List (ℚ × Reception)

/-- A call, with what it returned; `run` is `none` where it raises, `listen` where the socket
does not open. -/
inductive Call where
  | present (path : Text) (is : Bool)
  | realpath (path target : Text)
  | which (tool : Text) (found : Bool)
  | run (cmd : List Text) (ran : Option Ran)
  | sleep (seconds : ℚ)
  | monotonic (now : ℚ)
  | listen (iface : Text) (socket : Option Listening)
  | openLink (iface : Text) (opened : Bool)

/-- What the machine does with a call, given all calls before it. -/
structure World where
  present : List Call → Text → Bool
  realpath : List Call → Text → Text
  which : List Call → Text → Bool
  run : List Call → List Text → Option Ran
  monotonic : List Call → ℚ
  listen : List Call → Text → Option Listening
  openLink : List Call → Text → Bool
  stopping : List Call → Bool

/-- Why there is no result: a command that raises, a channel that is no number, a loop that
is still running. -/
inductive Stop where
  | cannotRun (cmd : List Text)
  | badInfo
  | running

abbrev Sys (α : Type) := Script (List Call) Stop α

def sleep (seconds : ℚ) : Sys Unit := act (· ++ [.sleep seconds])

namespace World

variable (w : World)

def pathExists (path : Text) : Sys Bool := ask (w.present · path) (.present path)

def realPath (path : Text) : Sys Text := ask (w.realpath · path) (.realpath path)

def tool (name : Text) : Sys Bool := ask (w.which · name) (.which name)

def command (cmd : List Text) : Sys Ran := do
  let ran ← ask (w.run · cmd) (.run cmd)
  expect (.cannotRun cmd) ran

/-- A command whose answer does not matter. -/
def perform (cmd : List Text) : Sys Unit := do
  let _ ← w.command cmd
  return ()

def clock : Sys ℚ := ask w.monotonic .monotonic

def socket (iface : Text) : Sys (Option Listening) := ask (w.listen · iface) (.listen iface)

/-- `MonitorLink(iface)`, and whether it opens. -/
def link (iface : Text) : Sys Bool := ask (w.openLink · iface) (.openLink iface)

end World

/-! ### adapter.py -/

def net (iface : Text) : Text := "/sys/class/net/".toList ++ iface

/-- `text.splitlines()`, up to empty lines. -/
def splitLines (t : Text) : List Text :=
  t.splitOnP fun c => c ∈ ['\n', '\r', '\x0b', '\x0c', '\x1c', '\x1d', '\x1e', '\u0085',
    '\u2028', '\u2029']

/-- `line.split()`. -/
def splitWords (t : Text) : List Text := (t.splitOnP isSpace).filter (· ≠ [])

/-- One line of `iw dev iface info`; `none` where `int` raises. -/
def infoLine (info : Text × Option ℤ) (raw : Text) : Option (Text × Option ℤ) :=
  let line := stripChars raw
  if "type ".toList <+: line then (splitWords line)[1]?.map fun itype => (itype, info.2)
  else if "channel ".toList <+: line then
    (splitWords line)[1]?.bind fun word =>
      (readInt (String.ofList word)).map fun chan => (info.1, some chan)
  else some info

/-- Type and channel as `iw` reports them; the last line of each kind counts. -/
def readInfo (stdout : Text) : Option (Text × Option ℤ) :=
  (splitLines stdout).foldlM infoLine ("unknown".toList, none)

def infoCommand (iface : Text) : List Text := ["iw".toList, "dev".toList, iface, "info".toList]

def upCommand (iface : Text) : List Text :=
  ["ip".toList, "link".toList, "set".toList, iface, "up".toList]

def channelCommand (iface : Text) : List Text :=
  ["iw".toList, "dev".toList, iface, "set".toList, "channel".toList, str channel]

def phyCommand : List Text := ["iw".toList, "phy".toList]

def monitorMode : Text := "monitor".toList

variable (w : World) (iface : Text)

def ifaceInfo : Sys (Text × Option ℤ) := do
  let ran ← w.command (infoCommand iface)
  expect .badInfo (readInfo ran.stdout)

/-- The interface is a USB wifi adapter whose driver can do monitor mode. -/
def verify : Sys Bool := do
  if (← w.pathExists (net iface)) = false then return false
  else if (← w.pathExists (net iface ++ "/phy80211".toList)) = false then return false
  else
    let dev ← w.realPath (net iface ++ "/device".toList)
    if ¬ "usb".toList <:+: dev then return false
    else
      let ran ← w.command phyCommand
      return monitorMode <:+: ran.stdout

/-- NetworkManager and wpa_supplicant drag the interface back to managed. -/
def releaseIface : Sys Unit := do
  let nmcli ← w.command ["sh".toList, "-c".toList, "command -v nmcli".toList]
  if nmcli.returncode = 0 then
    w.perform
      ["nmcli".toList, "device".toList, "set".toList, iface, "managed".toList, "no".toList]
  w.perform ["pkill".toList, "-f".toList, "wpa_supplicant.*".toList ++ iface]

/-- Into monitor mode unless it is in it; the second command is for drivers that refuse the
first. -/
def setMonitor : Sys Bool := do
  let info ← ifaceInfo w iface
  if info.1 = monitorMode then return true
  else
    w.perform ["ip".toList, "link".toList, "set".toList, iface, "down".toList]
    let r ← w.command
      ["iw".toList, "dev".toList, iface, "set".toList, monitorMode, "otherbss".toList]
    if r.returncode = 0 then return true
    else
      let r ← w.command
        ["iw".toList, "dev".toList, iface, "set".toList, "type".toList, monitorMode]
      return r.returncode = 0

/-- Up, and tuned if the mode is the right one now. -/
def tune : Sys Bool := do
  w.perform (upCommand iface)
  let info ← ifaceInfo w iface
  if info.1 ≠ monitorMode then return false
  else
    w.perform (channelCommand iface)
    return true

/-- Engage monitor mode on our channel and leave it there. -/
def enterMonitor : Sys Bool := do
  releaseIface w iface
  if ← setMonitor w iface then tune w iface else return false

def verifyAndConfigure : Sys Bool := do
  if ← verify w iface then enterMonitor w iface else return false

/-! ### recover.py -/

def modules : List Text :=
  ["mt7925u".toList, "mt7925_common".toList, "mt792x_lib".toList, "mt76_usb".toList,
    "mt76".toList]

def load : Text := "mt7925u".toList

def listenSeconds : ℚ := 3

def settleSeconds : ℚ := 3

def reappearTimeout : ℚ := 20

/-- The loop of `frames_heard`; `none` while it goes on. -/
def countFrames (deadline : ℚ) (frames : ℕ) : List (ℚ × Reception) → Option ℕ
  | [] => none
  | (now, heard) :: turns =>
    if deadline - now ≤ 0 then some frames
    else match heard with
      | .nothing => countFrames deadline frames turns
      | .bytes n => countFrames deadline (if n = 0 then frames else frames + 1) turns
      | .error => some frames

/-- How many frames the socket took in that many seconds. -/
def Listening.frames (x : Listening) (seconds : ℚ) : Option ℕ :=
  countFrames (x.start + seconds) 0 x.turns

/-- Count frames of any kind; `none` if it cannot listen. -/
def framesHeard (seconds : ℚ) : Sys (Option ℕ) := do
  match ← w.socket iface with
  | none => return none
  | some x =>
    let frames ← expect .running (x.frames seconds)
    return some frames

def unloadCommand : List Text := "modprobe".toList :: "-r".toList :: modules

def loadCommand : List Text := ["modprobe".toList, load]

/-- The modules are in use, which is the one failure that ends the reload. -/
def Ran.inUse (r : Ran) : Bool := r.returncode ≠ 0 && "in use".toList <:+: r.stderr ++ r.stdout

/-- Unload the mt76 stack and load it back. -/
def reloadDriver : Sys Bool := do
  if (← w.tool "modprobe".toList) = false then return false
  else
    let r ← w.command unloadCommand
    if r.inUse then return false
    else
      sleep settleSeconds
      let r ← w.command loadCommand
      return r.returncode = 0

/-- Wait for an interface to reappear after a driver reload. -/
def waitForIface (fuel : ℕ) : Sys Bool := do
  let deadline := (← w.clock) + reappearTimeout
  loop .running (fun _ : Unit => do
    if ¬ (← w.clock) < deadline then return .inr false
    else if ← w.pathExists (net iface) then
      sleep 2
      return .inr true
    else
      sleep (1 / 2)
      return .inl ()) fuel ()

/-! ### What a log shows -/

def Call.unloads : Call → Bool
  | .run cmd _ => cmd = unloadCommand
  | _ => false

def Call.loads : Call → Bool
  | .run cmd _ => cmd = loadCommand
  | _ => false

def systemctl : Text := "systemctl".toList

/-- A command to the service manager. -/
def Call.service : Call → Bool
  | .run cmd _ => cmd.head? = some systemctl
  | _ => false

/-- A listening that ends without a frame. -/
def Call.deaf : Call → Bool
  | .listen _ (some x) => x.frames listenSeconds = some 0
  | _ => false

/-- A wait between two tries at the adapter; all other waits are shorter. -/
def Call.backoff : Call → Option ℚ
  | .sleep seconds => if 5 ≤ seconds then some seconds else none
  | _ => none

/-- What has to come directly after a call: a reload after a deaf listening, and each step of
the reload after the one before. -/
def Follows : Call → Call → Prop
  | .listen _ (some x), d =>
    x.frames listenSeconds = some 0 → ∃ found, d = .which "modprobe".toList found
  | .which tool found, d =>
    tool = "modprobe".toList → found = true → ∃ ran, d = .run unloadCommand ran
  | .run cmd (some ran), d => cmd = unloadCommand → ran.inUse = false → d = .sleep settleSeconds
  | .sleep seconds, d => seconds = settleSeconds → ∃ ran, d = .run loadCommand ran
  | _, _ => True

/-- No part of a reload, nor a word to the service manager, nor a listening, nor a long wait. -/
structure Call.Quiet (c : Call) : Prop where
  unloads : c.unloads = false
  loads : c.loads = false
  service : c.service = false
  deaf : c.deaf = false
  backoff : c.backoff = none
  free : ∀ d, Follows c d

/-- The checks of `verify`, passed. -/
def Verified (l : List Call) : Prop :=
  ∃ dev phy, l = [.present (net iface) true, .present (net iface ++ "/phy80211".toList) true,
      .realpath (net iface ++ "/device".toList) dev, .run phyCommand (some phy)] ∧
    "usb".toList <:+: dev ∧ monitorMode <:+: phy.stdout

/-- At the end of some commands `iw` reports monitor mode, and the channel is set. -/
def Tuned (l : List Call) : Prop :=
  ∃ cmds info chan ran, l = cmds ++ [.run (infoCommand iface) (some info),
      .run (channelCommand iface) (some ran)] ∧
    readInfo info.stdout = some (monitorMode, chan)

/-- The adapter has passed every check and is in monitor mode. -/
def Configured (l : List Call) : Prop := ∃ a b, l = a ++ b ∧ Verified iface a ∧ Tuned iface b

/-! ### What the functions do -/

variable {w : World} {iface : Text} {l : List Call}

/-- Any other command. -/
structure Ordinary (cmd : List Text) : Prop where
  unload : cmd ≠ unloadCommand
  load : cmd ≠ loadCommand
  service : cmd.head? ≠ some systemctl

theorem ordinary_cons {word : Text} (h : word ≠ "modprobe".toList) (hs : word ≠ systemctl)
    (words : List Text) : Ordinary (word :: words) where
  unload heq := h (List.cons.inj heq).1
  load heq := h (List.cons.inj heq).1
  service heq := hs (Option.some.inj heq)

theorem quiet_run {cmd : List Text} (h : Ordinary cmd) (ran : Option Ran) :
    (Call.run cmd ran).Quiet where
  unloads := decide_eq_false h.unload
  loads := decide_eq_false h.load
  service := decide_eq_false h.service
  deaf := rfl
  backoff := rfl
  free d := by
    cases ran with
    | none => trivial
    | some ran => exact fun heq => absurd heq h.unload

theorem quiet_sleep {seconds : ℚ} (h : seconds < settleSeconds) : (Call.sleep seconds).Quiet where
  unloads := rfl
  loads := rfl
  service := rfl
  deaf := rfl
  backoff := if_neg (not_le.mpr (h.trans (by norm_num [settleSeconds])))
  free _ heq := absurd heq h.ne

theorem quiet_which {name : Text} (h : name ≠ "modprobe".toList) (found : Bool) :
    (Call.which name found).Quiet :=
  ⟨rfl, rfl, rfl, rfl, rfl, fun _ heq => absurd heq h⟩

theorem calls_present (path : Text) : (w.pathExists path).Calls Call.Quiet :=
  calls_ask fun _ => ⟨rfl, rfl, rfl, rfl, rfl, fun _ => trivial⟩

theorem calls_realPath (path : Text) : (w.realPath path).Calls Call.Quiet :=
  calls_ask fun _ => ⟨rfl, rfl, rfl, rfl, rfl, fun _ => trivial⟩

theorem calls_tool {name : Text} (h : name ≠ "modprobe".toList) :
    (w.tool name).Calls Call.Quiet :=
  calls_ask (quiet_which h)

theorem calls_link (iface : Text) : (w.link iface).Calls Call.Quiet :=
  calls_ask fun _ => ⟨rfl, rfl, rfl, rfl, rfl, fun _ => trivial⟩

theorem calls_clock : w.clock.Calls Call.Quiet :=
  calls_ask fun _ => ⟨rfl, rfl, rfl, rfl, rfl, fun _ => trivial⟩

theorem calls_sleep {seconds : ℚ} (h : seconds < settleSeconds) :
    (sleep seconds).Calls Call.Quiet :=
  fun l => wp_act.mpr ⟨Grown.refl _ l, grown_concat (quiet_sleep h), grown_concat (quiet_sleep h)⟩

theorem calls_command {cmd : List Text} (h : Ordinary cmd) :
    (w.command cmd).Calls Call.Quiet :=
  (calls_ask fun ran => quiet_run h ran).bind fun _ => calls_expect _ _

theorem calls_ifaceInfo : (ifaceInfo w iface).Calls Call.Quiet :=
  (calls_command (ordinary_cons (by decide) (by decide) _)).bind fun _ => calls_expect _ _

theorem calls_verify : (verify w iface).Calls Call.Quiet := by
  refine (calls_present _).bind fun is => Calls.ite (calls_pure _) ?_
  refine (calls_present _).bind fun is => Calls.ite (calls_pure _) ?_
  refine (calls_realPath _).bind fun dev => Calls.ite (calls_pure _) ?_
  exact (calls_command (ordinary_cons (by decide) (by decide) _)).bind fun _ => calls_pure _

theorem calls_perform {word : Text} (h : word ≠ "modprobe".toList) (hs : word ≠ systemctl)
    (words : List Text) : (w.perform (word :: words)).Calls Call.Quiet :=
  (calls_command (ordinary_cons h hs words)).bind fun _ => calls_pure _

theorem calls_releaseIface : (releaseIface w iface).Calls Call.Quiet := by
  refine (calls_command (ordinary_cons (by decide) (by decide) _)).bind fun nmcli => ?_
  have hpkill : (w.perform
      ["pkill".toList, "-f".toList, "wpa_supplicant.*".toList ++ iface]).Calls Call.Quiet :=
    calls_perform (by decide) (by decide) _
  exact Calls.ite ((calls_perform (by decide) (by decide) _).bind fun _ => hpkill) hpkill

theorem calls_setMonitor : (setMonitor w iface).Calls Call.Quiet := by
  refine calls_ifaceInfo.bind fun info => Calls.ite (calls_pure _) ?_
  refine (calls_perform (by decide) (by decide) _).bind fun _ => ?_
  refine (calls_command (ordinary_cons (by decide) (by decide) _)).bind fun r => ?_
  refine Calls.ite (calls_pure _) ?_
  exact (calls_command (ordinary_cons (by decide) (by decide) _)).bind fun _ => calls_pure _

theorem calls_tune : (tune w iface).Calls Call.Quiet := by
  refine (calls_perform (by decide) (by decide) _).bind fun _ => ?_
  refine calls_ifaceInfo.bind fun info => Calls.ite (calls_pure _) ?_
  exact (calls_perform (by decide) (by decide) _).bind fun _ => calls_pure _

theorem calls_enterMonitor : (enterMonitor w iface).Calls Call.Quiet := by
  exact calls_releaseIface.bind fun _ => calls_setMonitor.bind fun set =>
    Calls.ite calls_tune (calls_pure _)

theorem calls_verifyAndConfigure : (verifyAndConfigure w iface).Calls Call.Quiet :=
  calls_verify.bind fun _ => Calls.ite calls_enterMonitor (calls_pure _)

theorem calls_waitForIface (fuel : ℕ) : (waitForIface w iface fuel).Calls Call.Quiet := by
  refine calls_clock.bind fun start => Calls.loop (fun _ => ?_) fuel ()
  refine calls_clock.bind fun now => Calls.ite (calls_pure _) ?_
  refine (calls_present _).bind fun is => Calls.ite ?_ ?_
  · exact (calls_sleep (by norm_num [settleSeconds])).bind fun _ => calls_pure _
  · exact (calls_sleep (by norm_num [settleSeconds])).bind fun _ => calls_pure _

/-- `verify` passes only if every one of its checks does. -/
theorem verify_true : (verify w iface).wp
    (fun r t => r = true → ∃ seg, t = l ++ seg ∧ Verified iface seg) (fun _ => True) l := by
  simp only [verify, World.pathExists, World.realPath, World.command, wp_bind, wp_ask, wp_ite,
    wp_pure, wp_expect, true_and]
  refine ⟨fun _ h => absurd h (by decide), fun hnet => ⟨fun _ h => absurd h (by decide),
    fun hphy => ⟨fun _ h => absurd h (by decide), fun husb ran hran h => ?_⟩⟩⟩
  rw [Bool.not_eq_false] at hnet hphy
  refine ⟨_, ?_, _, ran, rfl, not_not.mp husb, of_decide_eq_true h⟩
  rw [hran, hphy, hnet]
  simp

theorem Tuned.after {seg : List Call} (h : Tuned iface seg) (before : List Call) :
    Tuned iface (before ++ seg) := by
  obtain ⟨cmds, info, chan, ran, rfl, hinfo⟩ := h
  exact ⟨before ++ cmds, info, chan, ran, (List.append_assoc _ _ _).symm, hinfo⟩

theorem wp_command {cmd : List Text} : (w.command cmd).wp
    (fun ran t => t = l ++ [.run cmd (some ran)]) (fun _ => True) l := by
  simp only [World.command, wp_bind, wp_ask, wp_expect, true_and]
  rintro ran hran
  rw [hran]

theorem tune_true : (tune w iface).wp
    (fun r t => r = true → ∃ seg, t = l ++ seg ∧ Tuned iface seg) (fun _ => True) l := by
  refine wp_bind.mpr (wp_bind.mpr (wp_command.mono (fun up t ht => ?_) fun _ _ => trivial))
  subst ht
  refine wp_pure.mpr ⟨trivial, wp_bind.mpr (wp_bind.mpr ?_)⟩
  refine wp_command.mono (fun info t ht => ?_) fun _ _ => trivial
  subst ht
  refine wp_expect.mpr ⟨trivial, fun found hfound => wp_ite.mpr ⟨fun _ => ?_, fun hmode => ?_⟩⟩
  · exact wp_pure.mpr ⟨trivial, fun h => absurd h (by decide)⟩
  · obtain ⟨mode, chan⟩ := found
    obtain rfl : mode = monitorMode := not_not.mp hmode
    refine wp_bind.mpr (wp_bind.mpr (wp_command.mono (fun ran t ht => ?_) fun _ _ => trivial))
    subst ht
    refine wp_pure.mpr ⟨trivial, wp_pure.mpr ⟨trivial, fun _ => ?_⟩⟩
    exact ⟨_, by simp, [.run (upCommand iface) (some up)], info, chan, ran, rfl, hfound⟩

theorem enterMonitor_true : (enterMonitor w iface).wp
    (fun r t => r = true → ∃ seg, t = l ++ seg ∧ Tuned iface seg) (fun _ => True) l := by
  refine wp_bind.mpr ((calls_releaseIface l).mono (fun _ t ht => ?_) fun _ _ => trivial)
  refine wp_bind.mpr ((calls_setMonitor t).mono (fun set u hu => ?_) fun _ _ => trivial)
  obtain ⟨before, rfl, -⟩ := ht.trans hu
  refine wp_ite.mpr ⟨fun _ => tune_true.mono (fun r v hv hr => ?_) fun _ _ => trivial, fun _ => ?_⟩
  · obtain ⟨seg, rfl, hseg⟩ := hv hr
    exact ⟨before ++ seg, List.append_assoc _ _ _, hseg.after before⟩
  · exact wp_pure.mpr ⟨trivial, fun h => absurd h (by decide)⟩

/-- Every check passed, if it says so; and in no case a reload, a listening or a long wait. -/
theorem wp_verifyAndConfigure : (verifyAndConfigure w iface).wp
    (fun r t => Grown Call.Quiet l t ∧
      (r = true → ∃ seg, t = l ++ seg ∧ Configured iface seg)) (Grown Call.Quiet l) l := by
  have htrue : (verifyAndConfigure w iface).wp
      (fun r t => r = true → ∃ seg, t = l ++ seg ∧ Configured iface seg) (fun _ => True) l := by
    refine wp_bind.mpr (verify_true.mono (fun ok t ht => ?_) fun _ _ => trivial)
    refine wp_ite.mpr ⟨fun hok => ?_, fun _ => ?_⟩
    · obtain ⟨a, rfl, ha⟩ := ht hok
      refine enterMonitor_true.mono (fun r u hu hr => ?_) fun _ _ => trivial
      obtain ⟨b, rfl, hb⟩ := hu hr
      exact ⟨a ++ b, List.append_assoc _ _ _, a, b, rfl, ha, hb⟩
    · exact wp_pure.mpr ⟨trivial, fun h => absurd h (by decide)⟩
  exact ((calls_verifyAndConfigure l).and htrue).mono (fun _ _ h => h) fun _ h => h.1

theorem wp_framesHeard {seconds : ℚ} : (framesHeard w iface seconds).wp
    (fun r t => ∃ x, t = l ++ [.listen iface x] ∧ r = x.bind (·.frames seconds) ∧
      (x.isSome → r.isSome))
    (fun t => t = l ∨ ∃ x, t = l ++ [.listen iface x]) l := by
  refine wp_bind.mpr (wp_ask.mpr ⟨Or.inl rfl, Or.inr ⟨_, rfl⟩, ?_⟩)
  cases w.listen l iface with
  | none => exact wp_pure.mpr ⟨Or.inr ⟨_, rfl⟩, none, rfl, rfl, fun h => h⟩
  | some x =>
    refine wp_bind.mpr (wp_expect.mpr ⟨Or.inr ⟨_, rfl⟩, fun frames hframes => ?_⟩)
    exact wp_pure.mpr ⟨Or.inr ⟨_, rfl⟩, some x, rfl, hframes.symm, fun _ => rfl⟩

/-! ### The reload -/

/-- The calls of a reload, as far as it has come. -/
inductive Reload : List Call → Prop
  | start : Reload []
  | asked (found : Bool) : Reload [.which "modprobe".toList found]
  | unloaded (ran : Option Ran) :
      Reload [.which "modprobe".toList true, .run unloadCommand ran]
  | slept {ran : Ran} (h : ran.inUse = false) :
      Reload [.which "modprobe".toList true, .run unloadCommand (some ran), .sleep settleSeconds]
  | loaded {ran : Ran} (h : ran.inUse = false) (again : Option Ran) :
      Reload [.which "modprobe".toList true, .run unloadCommand (some ran),
        .sleep settleSeconds, .run loadCommand again]

/-- The calls of a reload that is over, and its result. -/
inductive Reloaded : Bool → List Call → Prop
  | missing : Reloaded false [.which "modprobe".toList false]
  | held {ran : Ran} (h : ran.inUse = true) :
      Reloaded false [.which "modprobe".toList true, .run unloadCommand (some ran)]
  | loaded {ran again : Ran} (h : ran.inUse = false) :
      Reloaded (decide (again.returncode = 0)) [.which "modprobe".toList true,
        .run unloadCommand (some ran), .sleep settleSeconds, .run loadCommand (some again)]

variable {seg : List Call} {ok : Bool}

theorem Reloaded.reload (h : Reloaded ok seg) : Reload seg := by
  cases h with
  | missing => exact .asked false
  | held h => exact .unloaded _
  | loaded h => exact .loaded h _

theorem Reloaded.ne_nil (h : Reloaded ok seg) : seg ≠ [] := by
  cases h <;> exact List.cons_ne_nil _ _

/-- A reload that is over asks for nothing more. -/
theorem Reloaded.settled (h : Reloaded ok seg) : Settled Follows seg := by
  cases h with
  | missing =>
    rintro c hc d
    obtain rfl := Option.some.inj hc
    exact fun _ hfound => absurd hfound (by decide)
  | held h =>
    rintro c hc d
    obtain rfl := Option.some.inj hc
    exact fun _ hfree => absurd (h.symm.trans hfree) (by decide)
  | loaded h =>
    rintro c hc d
    obtain rfl := Option.some.inj hc
    exact fun heq => absurd heq (by decide)

/-- Every step of a reload is the one that has to come. -/
theorem Reload.follows (h : Reload seg) {x : Listening} :
    (Call.listen iface (some x) :: seg).IsChain Follows := by
  cases h with
  | start => exact List.isChain_singleton _
  | asked found => simp [Follows]
  | unloaded ran => simp [Follows]
  | slept h => simp [Follows]
  | loaded h again => simp [Follows]

theorem Reload.unloads_le (h : Reload seg) : seg.countP Call.unloads ≤ 1 := by
  cases h <;> simp [Call.unloads, loadCommand, unloadCommand, modules]

theorem Reload.not_deaf (h : Reload seg) : seg.countP Call.deaf = 0 := by
  cases h <;> simp [Call.deaf]

theorem Reload.backoff (h : Reload seg) : seg.filterMap Call.backoff = [] := by
  have hshort : ¬ (5 : ℚ) ≤ settleSeconds := by norm_num [settleSeconds]
  cases h <;> simp [Call.backoff, hshort]

theorem Reload.service (h : Reload seg) : seg.countP Call.service = 0 := by
  cases h <;> rfl

/-- An unload is the second step. -/
theorem Reload.guarded (h : Reload seg) :
    Guarded Call.unloads (· = [.which "modprobe".toList true]) seg := by
  have hfirst (found : Bool) : Guarded Call.unloads (· = [.which "modprobe".toList true])
      [.which "modprobe".toList found] :=
    guarded_concat (l := []).mpr ⟨guarded_nil, fun hc => by cases hc⟩
  have hsecond (ran : Option Ran) : Guarded Call.unloads (· = [.which "modprobe".toList true])
      [.which "modprobe".toList true, .run unloadCommand ran] :=
    guarded_concat (l := [_]).mpr ⟨hfirst true, fun _ => rfl⟩
  cases h with
  | start => exact guarded_nil
  | asked found => exact hfirst found
  | unloaded ran => exact hsecond ran
  | slept h =>
    exact guarded_concat (l := [_, _]).mpr ⟨hsecond _, fun hc => by cases hc⟩
  | loaded h again =>
    refine guarded_concat (l := [_, _, _]).mpr ⟨?_, fun hc => by cases hc⟩
    exact guarded_concat (l := [_, _]).mpr ⟨hsecond _, fun hc => by cases hc⟩

theorem wp_reloadDriver : (reloadDriver w).wp
    (fun ok t => ∃ seg, t = l ++ seg ∧ Reloaded ok seg) (fun t => ∃ seg, t = l ++ seg ∧ Reload seg)
    l := by
  have hstart : ∃ seg, l = l ++ seg ∧ Reload seg := ⟨[], (List.append_nil l).symm, .start⟩
  have hasked (found : Bool) : ∃ seg, l ++ [.which "modprobe".toList found] = l ++ seg ∧
      Reload seg := ⟨_, rfl, .asked found⟩
  refine wp_bind.mpr (wp_ask.mpr ⟨hstart, hasked _, ?_⟩)
  refine wp_ite.mpr ⟨fun hmissing => ?_, fun hfound => ?_⟩
  · refine wp_pure.mpr ⟨hasked _, _, rfl, ?_⟩
    rw [hmissing]
    exact .missing
  rw [Bool.not_eq_false] at hfound
  rw [hfound]
  have hunloaded (ran : Option Ran) : ∃ seg,
      l ++ [.which "modprobe".toList true] ++ [.run unloadCommand ran] = l ++ seg ∧ Reload seg :=
    ⟨_, List.append_assoc _ _ _, .unloaded ran⟩
  refine wp_bind.mpr (wp_bind.mpr (wp_ask.mpr ⟨hasked true, hunloaded _, ?_⟩))
  refine wp_expect.mpr ⟨hunloaded _, fun r hr => ?_⟩
  rw [hr]
  refine wp_ite.mpr ⟨fun huse => ?_, fun hfree => ?_⟩
  · exact wp_pure.mpr ⟨hunloaded _, _, List.append_assoc _ _ _, .held huse⟩
  rw [Bool.not_eq_true] at hfree
  have hslept : ∃ seg, l ++ [.which "modprobe".toList true] ++ [.run unloadCommand (some r)] ++
      [.sleep settleSeconds] = l ++ seg ∧ Reload seg := ⟨_, by simp, .slept hfree⟩
  refine wp_bind.mpr (wp_act.mpr ⟨hunloaded _, hslept, ?_⟩)
  have hloaded (ran : Option Ran) : ∃ seg, l ++ [.which "modprobe".toList true] ++
      [.run unloadCommand (some r)] ++ [.sleep settleSeconds] ++ [.run loadCommand ran] =
        l ++ seg ∧ Reload seg := ⟨_, by simp, .loaded hfree ran⟩
  refine wp_bind.mpr (wp_bind.mpr (wp_ask.mpr ⟨hslept, hloaded _, ?_⟩))
  refine wp_expect.mpr ⟨hloaded _, fun again hagain => wp_pure.mpr ⟨hloaded _, ?_⟩⟩
  rw [hagain]
  exact ⟨_, by simp, .loaded hfree⟩

end Beachedmesh
