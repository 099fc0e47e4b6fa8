import Beachedmesh.DaemonOptions
import Beachedmesh.Support.Words

/-!
# The installed service

`beachedmesh-setup` writes a unit file whose `ExecStart` line runs the daemon with the
interface, the name and the interval it was given. The line is the words with a space
between them; `systemd` splits it, and the daemon parses what comes out.
-/
namespace Beachedmesh
open PyText Words Doubles

/-! ### The unit file -/

def unitHead : List String :=
  ["[Unit]",
    "Description=beachedmesh node",
    "After=network.target",
    "",
    "# No start rate limit. systemd's default gives up permanently after 5 rapid",
    "# failures, which is exactly wrong for an unattended node: a solar site that",
    "# drained its battery and came back days later would find the service dead",
    "# with nobody present to restart it. The daemon waits for its adapter rather",
    "# than exiting, so repeated starts should not happen -- but if they do, giving",
    "# up is never the right answer here.",
    "StartLimitIntervalSec=0",
    "",
    "[Service]",
    "Type=simple"]

def unitTail : List String :=
  ["",
    "# Raw sockets and iw need root: NET_RAW to inject, NET_ADMIN to set monitor",
    "# mode. No further sandboxing, since those are the whole job.",
    "User=root",
    "",
    "# SIGTERM is handled: the loop exits, buffered route writes are flushed, and",
    "# sqlite closes. Give it room rather than killing it mid-write.",
    "KillSignal=SIGTERM",
    "TimeoutStopSec=15",
    "",
    "Restart=always",
    "RestartSec=10",
    "",
    "StandardOutput=journal",
    "StandardError=journal",
    "",
    "[Install]",
    "# multi-user.target is reached during boot, before and independent of any",
    "# login. Nothing here depends on a session.",
    "WantedBy=multi-user.target"]

/-- `UNIT.format(exec_start=..., repo=...)`. -/
def unit (execStart repo : Text) : Text :=
  (unitHead.map String.toList ++
    ["ExecStart=".toList ++ execStart, "WorkingDirectory=".toList ++ repo] ++
    unitTail.map String.toList).flatMap fun l => l ++ ['\n']

/-- What stands after `ExecStart=` in a unit file. A line that ends in a backslash is no
command: the setting on the next line is joined to it. -/
def execStartLine (file : Text) : Option Text :=
  (((lines file).find? ("ExecStart=".toList.isPrefixOf ·)).map fun l =>
    (l.drop "ExecStart=".toList.length).takeWhile (! isBreak ·)).filter fun l => ! dangling l

/-- `str(i)`. -/
def strInt (i : ℤ) : Text := if i < 0 then '-' :: str (-i).toNat else str i.toNat

/-- The words for the interval, `none` when `int` raises. -/
def intervalArgs (interval : PyFloat) : Option (List Text) :=
  if interval ≠ .finite announceInterval then
    (Json.float interval).toInt.toOption.map fun i => ["--announce-interval".toList, strInt i]
  else some []

def program (repo : Text) : Text := repo ++ "/bin/beachedmesh".toList

/-- `cmd`. -/
def command (repo iface name : Text) (interval : PyFloat) : Option (List Text) :=
  (intervalArgs interval).map fun extra =>
    [program repo, "-i".toList, iface] ++ (if name ≠ [] then ["--name".toList, name] else []) ++
      extra

/-- `install_service`, where there is a `systemd`: the unit file it writes. -/
def installService (repo iface name : Text) (interval : PyFloat) : Option Text :=
  (command repo iface name interval).map fun cmd => unit ([' '].intercalate cmd) repo

/-- The service starts the daemon with what setup was given. -/
def RunsAsAsked (split : Text → Option (List Text)) (repo iface name : Text)
    (interval : PyFloat) : Prop :=
  ∃ file line argv args, installService repo iface name interval = some file ∧
    execStartLine file = some line ∧ split line = some (program repo :: argv) ∧
    parseArgs argv = some args ∧ args.iface = some iface ∧ args.name = name ∧
    args.announceInterval = interval

def PyFloat.Positive : PyFloat → Prop
  | .finite x => 0 < x
  | .infinite negative => negative = false
  | .nan => False

/-- The text is one word of the line as it stands, and no option of the daemon. -/
structure Survives (known : Text → Prop) (t : Text) : Prop where
  ne_nil : t ≠ []
  stands : Stands known t
  argument : daemonOptions.isArgument t = true

/-! ### The line of the file -/

theorem not_execStart_unitHead :
    ∀ l ∈ unitHead.map String.toList, '\n' ∉ l ∧ l.head? ≠ some 'E' := by
  have hall : unitHead.all (fun s => decide ('\n' ∉ s.toList ∧ s.toList.head? ≠ some 'E')) := by
    decide +kernel
  intro l hl
  obtain ⟨s, hs, rfl⟩ := List.mem_map.mp hl
  exact of_decide_eq_true (List.all_eq_true.mp hall s hs)

/-- No line before it is taken for the `ExecStart` line. -/
theorem not_isPrefixOf_unitHead {l : Text} (hl : l ∈ unitHead.map String.toList) :
    ¬ "ExecStart=".toList.isPrefixOf (l ++ ['\n']) := by
  have hE := (not_execStart_unitHead l hl).2
  simp only [String.reduceToList]
  cases l with
  | nil => decide
  | cons c l =>
    have hc : c ≠ 'E' := by simpa using hE
    simp [Ne.symm hc]

theorem lines_unit (execStart repo : Text) :
    ∃ rest, lines (unit execStart repo) = (unitHead.map String.toList).map (· ++ ['\n']) ++
      ("ExecStart=".toList ++ (execStart.takeWhile (· != '\n') ++ ['\n'])) :: rest := by
  have hflag : ∀ c ∈ "ExecStart=".toList, (c != '\n') = true := by
    simp only [String.reduceToList]
    exact List.all_eq_true.mp rfl
  rw [unit, List.append_assoc, List.flatMap_append,
    lines_flatMap_append fun l hl => (not_execStart_unitHead l hl).1, List.cons_append,
    List.flatMap_cons, List.append_assoc, List.singleton_append]
  obtain ⟨rest, hrest⟩ := lines_cut ("ExecStart=".toList ++ execStart)
    ((["WorkingDirectory=".toList ++ repo] ++ unitTail.map String.toList).flatMap
      fun l => l ++ ['\n'])
  rw [List.takeWhile_append_of_pos hflag] at hrest
  exact ⟨rest, by rw [hrest, List.append_assoc]⟩

theorem takeWhile_line (t : Text) :
    (t.takeWhile (· != '\n') ++ ['\n']).takeWhile (! isBreak ·) = t.takeWhile (! isBreak ·) := by
  induction t with
  | nil => rfl
  | cons c t ih =>
    by_cases hc : c = '\n'
    · subst hc
      rfl
    · rw [List.takeWhile_cons_of_pos (by simpa using hc), List.cons_append, List.takeWhile_cons,
        List.takeWhile_cons, ih]

/-- The line of the file ends where the command has its first break, if it has one. -/
theorem execStartLine_unit (execStart repo : Text) :
    execStartLine (unit execStart repo) =
      (some (execStart.takeWhile (! isBreak ·))).filter fun l => ! dangling l := by
  obtain ⟨rest, hrest⟩ := lines_unit execStart repo
  have hnone : ((unitHead.map String.toList).map (· ++ ['\n'])).find?
      ("ExecStart=".toList.isPrefixOf ·) = none := by
    rw [List.find?_eq_none, List.forall_mem_map]
    exact fun l hl => not_isPrefixOf_unitHead hl
  have hsome : "ExecStart=".toList.isPrefixOf
      ("ExecStart=".toList ++ (execStart.takeWhile (· != '\n') ++ ['\n'])) :=
    List.isPrefixOf_iff_prefix.mpr (List.prefix_append _ _)
  rw [execStartLine, hrest, List.find?_append, hnone, Option.none_or,
    List.find?_cons_of_pos hsome, Option.map_some, List.drop_left, takeWhile_line]

/-! ### The words for the interval -/

/-- The words for an interval of so many seconds. -/
def wholeSeconds (x : ℚ) : List Text :=
  if x = announceInterval then [] else ["--announce-interval".toList, str ⌊x⌋.toNat]

theorem intervalArgs_finite {x : ℚ} (hx : 0 < x) :
    intervalArgs (.finite x) = some (wholeSeconds x) := by
  have hint : (Json.float (.finite x)).toInt.toOption = some ⌊x⌋ := by
    rw [Json.toInt, pyInt, if_pos hx.le]
    rfl
  have hstr : strInt ⌊x⌋ = str ⌊x⌋.toNat := if_neg (Int.floor_nonneg.mpr hx.le).not_gt
  by_cases heq : x = announceInterval
  · simp [intervalArgs, wholeSeconds, heq]
  · simp [intervalArgs, wholeSeconds, heq, hint, hstr]

/-- An infinite interval stops the installation: `int` raises. -/
theorem installService_infinite (repo iface name : Text) (negative : Bool) :
    installService repo iface name (.infinite negative) = none := by
  have hne : PyFloat.infinite negative ≠ .finite announceInterval := by rintro ⟨⟩
  have hint : (Json.float (.infinite negative)).toInt.toOption = none := rfl
  rw [installService, command, intervalArgs, if_pos hne, hint]
  rfl

theorem isPlain_of_isDigit {c : Char} (h : c.isDigit = true) : isPlain c = true := by
  simp only [isPlain, isBlank, isQuote, Bool.and_eq_true, Bool.not_eq_true', Bool.or_eq_false_iff,
    decide_eq_true_eq, decide_eq_false_iff_not]
  refine ⟨⟨⟨⟨⟨?_, ?_⟩, ?_⟩, ?_⟩, ?_, ?_⟩, ?_⟩
  all_goals
    rintro rfl
    cases h

theorem plain_str (n : ℕ) : Plain (str n) := fun _ hc => isPlain_of_isDigit (isDigit_of_mem_str hc)

theorem plain_wholeSeconds (x : ℚ) : ∀ w ∈ wholeSeconds x, w ≠ [] ∧ Plain w := by
  unfold wholeSeconds
  split_ifs
  · simp
  · have hflag : "--announce-interval".toList ≠ [] ∧ Plain "--announce-interval".toList := by
      simp only [String.reduceToList]
      exact ⟨by simp, plain_of_all rfl⟩
    simp only [List.forall_mem_cons]
    exact ⟨hflag, ⟨str_ne_nil _, plain_str _⟩, by simp⟩

/-! ### Parsing -/

variable {known : Text → Prop}

/-- A plain word is an option unless it has no dash in front, is a dash, or a negative
number. -/
theorem survives_iff {t : Text} (ht : Plain t) : Survives known t ↔
    t ≠ [] ∧ (t.head? ≠ some '-' ∨ t = ['-'] ∨ daemonOptions.isNegativeNumber t = true) := by
  have hspace : ' ' ∉ t := fun hmem => by cases ht.isBlank_of_mem hmem
  rw [← isArgument_iff hspace]
  exact ⟨fun h => ⟨h.ne_nil, h.argument⟩, fun h => ⟨h.1, ht.stands, h.2⟩⟩

/-- What the daemon reads from the words for an interface, a name and an interval. -/
def Args.asked (iface name : Text) (x : ℚ) : Args :=
  { Args.defaults with iface := some iface, name := name, announceInterval := .finite x }

theorem isArgument_str (n : ℕ) : daemonOptions.isArgument (str n) = true := by
  refine ArgParse.Options.isArgument_of_head fun h => ?_
  have hmem := List.mem_of_mem_head? (Option.mem_def.mpr h)
  exact absurd (isDigit_of_mem_str hmem) (by decide)

theorem step_argument {f : Text → Args → Option Args} {w : Text}
    (h : daemonOptions.isArgument w = true) (a : Args) :
    daemonOptions.step (a, some f) w = (f w a).map (·, none) := if_pos h

theorem foldlM_wholeSeconds {x : ℚ} (hx : 0 < x) (hdouble : IsDouble x) (iface name : Text) :
    (wholeSeconds x).foldlM daemonOptions.step (Args.asked iface name announceInterval, none) =
      some (Args.asked iface name ⌊x⌋, none) := by
  unfold wholeSeconds
  split_ifs with heq
  · have hfloor : (⌊x⌋ : ℚ) = announceInterval := by
      rw [heq, announceInterval]
      norm_num
    rw [hfloor]
    rfl
  · have hcast : ((⌊x⌋.toNat : ℕ) : ℚ) = ⌊x⌋ := by
      exact_mod_cast Int.toNat_of_nonneg (Int.floor_nonneg.mpr hx.le)
    have hread : readFloat (str ⌊x⌋.toNat) = some (.finite ⌊x⌋) := by
      rw [← hcast]
      exact readFloat_str (hcast ▸ hdouble.floor hx.le)
    rw [List.foldlM_cons, step_interval, Option.bind_eq_bind, Option.bind_some, List.foldlM_cons,
      step_argument (isArgument_str _), storeInterval, hread]
    rfl

theorem step_not_argument {f : Text → Args → Option Args} {w : Text}
    (h : daemonOptions.isArgument w = false) (a : Args) :
    daemonOptions.step (a, some f) w = none := if_neg (by simp [h])

/-- The two options with their arguments. -/
theorem foldlM_command (iface name : Text) (ws : List Text) :
    ("-i".toList :: iface :: "--name".toList :: name :: ws).foldlM daemonOptions.step
        (Args.defaults, none) =
      if daemonOptions.isArgument iface = true ∧ daemonOptions.isArgument name = true then
        ws.foldlM daemonOptions.step (Args.asked iface name announceInterval, none)
      else none := by
  rw [List.foldlM_cons, step_iface, Option.bind_eq_bind, Option.bind_some, List.foldlM_cons]
  cases hiface : daemonOptions.isArgument iface with
  | false =>
    rw [step_not_argument hiface]
    simp
  | true =>
    rw [step_argument hiface, storeIface, Option.map_some, Option.bind_eq_bind, Option.bind_some,
      List.foldlM_cons, step_name, Option.bind_eq_bind, Option.bind_some, List.foldlM_cons]
    cases hname : daemonOptions.isArgument name with
    | false =>
      rw [step_not_argument hname]
      simp
    | true =>
      rw [step_argument hname, storeName]
      rfl

theorem parse_command_iff {x : ℚ} (hx : 0 < x) (hdouble : IsDouble x) {iface name : Text}
    {args : Args} :
    parseArgs ("-i".toList :: iface :: "--name".toList :: name :: wholeSeconds x) = some args ↔
      daemonOptions.isArgument iface = true ∧ daemonOptions.isArgument name = true ∧
        args = Args.asked iface name ⌊x⌋ := by
  rw [parseArgs, ArgParse.Options.parse, foldlM_command, foldlM_wholeSeconds hx hdouble]
  split_ifs with h
  · obtain ⟨hiface, hname⟩ := h
    have hfilter : ((some (Args.asked iface name ⌊x⌋)).filter fun a => a.iface.isSome) =
        some (Args.asked iface name ⌊x⌋) := rfl
    rw [Option.bind_some, hfilter]
    simp [hiface, hname, eq_comm]
  · rw [Option.bind_none, Option.filter_none]
    constructor
    · intro hnone
      cases hnone
    · rintro ⟨hiface, hname, -⟩
      exact absurd ⟨hiface, hname⟩ h

/-! ### The line -/

/-- The words after the program. -/
def argWords (iface name : Text) (x : ℚ) : List Text :=
  "-i".toList :: iface :: "--name".toList :: name :: wholeSeconds x

variable {split : Text → Option (List Text)} {repo iface name : Text} {x : ℚ}

/-- The file for a name that is not empty. -/
theorem installService_finite (hx : 0 < x) (repo iface : Text) (hname : name ≠ []) :
    installService repo iface name (.finite x) =
      some (unit (program repo ++ spaced (argWords iface name x)) repo) := by
  rw [installService, command, intervalArgs_finite hx, if_pos hname]
  exact congrArg (fun t => some (unit t repo)) (intercalate_cons_eq_spaced _ _)

theorem plain_ifaceFlag : "-i".toList ≠ [] ∧ Plain "-i".toList := by
  simp only [String.reduceToList]
  exact ⟨by simp, plain_of_all rfl⟩

theorem plain_nameFlag : "--name".toList ≠ [] ∧ Plain "--name".toList := by
  simp only [String.reduceToList]
  exact ⟨by simp, plain_of_all rfl⟩

theorem program_ne_nil (repo : Text) : program repo ≠ [] :=
  List.append_ne_nil_of_right_ne_nil _ (by simp)

/-- The line that the file has, up to the first break of the command. -/
def commandLine (repo iface name : Text) (x : ℚ) : Text :=
  (program repo ++ spaced (argWords iface name x)).takeWhile (! isBreak ·)

/-- What the service runs, in terms of the line. -/
theorem runsAsAsked_iff (hx : 0 < x) (hne : name ≠ []) :
    RunsAsAsked split repo iface name (.finite x) ↔
      dangling (commandLine repo iface name x) = false ∧
      ∃ argv args, split (commandLine repo iface name x) = some (program repo :: argv) ∧
        parseArgs argv = some args ∧ args.iface = some iface ∧ args.name = name ∧
        args.announceInterval = .finite x := by
  have hline := execStartLine_unit (program repo ++ spaced (argWords iface name x)) repo
  constructor
  · rintro ⟨file, line, argv, args, hfile, hread, hsplit, hparse⟩
    rw [installService_finite hx repo iface hne] at hfile
    obtain rfl := Option.some.inj hfile
    obtain ⟨hsome, hdangling⟩ := Option.filter_eq_some_iff.mp (hline.symm.trans hread)
    obtain rfl := Option.some.inj hsome
    exact ⟨by simpa [commandLine] using hdangling, argv, args, hsplit, hparse⟩
  · rintro ⟨hdangling, argv, args, hsplit, hparse⟩
    refine ⟨_, _, argv, args, installService_finite hx repo iface hne, ?_, hsplit, hparse⟩
    exact hline.trans (Option.filter_eq_some_iff.mpr ⟨rfl, by simpa [commandLine] using hdangling⟩)

theorem line_commandLine (h : dangling (commandLine repo iface name x) = false) :
    Line (commandLine repo iface name x) :=
  ⟨fun c hc => by simpa using List.mem_takeWhile_imp hc, h⟩

/-! ### What survives -/

/-- Words that stand are all on the line of the file. -/
theorem execStartLine_of_stands (hrepo : Stands known (program repo)) {ws : List Text}
    (hws : ∀ w ∈ ws, Stands known w) :
    execStartLine (unit (program repo ++ spaced ws) repo) = some (program repo ++ spaced ws) := by
  have hbreak : ∀ c ∈ program repo ++ spaced ws, isBreak c = false := by
    intro c hc
    rcases List.mem_append.mp hc with hc | hc
    · exact hrepo.isBreak_of_mem c hc
    · exact forall_mem_spaced (P := fun c => isBreak c = false) (by decide)
        (fun w hw => (hws w hw).isBreak_of_mem) c hc
  have hline : (program repo ++ spaced ws).takeWhile (! isBreak ·) = program repo ++ spaced ws :=
    List.takeWhile_eq_self_iff.mpr fun c hc => by simp [hbreak c hc]
  have hdangling : dangling (program repo ++ spaced ws) = false := by
    rw [hrepo.dangling_append]
    exact dangling_spaced hws
  rw [execStartLine_unit, hline, Option.filter_some, hdangling]
  rfl

theorem split_program (hs : Splitter known split) (hrepo : Stands known (program repo))
    {ws : List Text} (hws : ∀ w ∈ ws, w ≠ [] ∧ Stands known w) :
    split (program repo ++ spaced ws) = some (program repo :: ws) := by
  rw [hs.stands (program_ne_nil repo) hrepo (ended_spaced _), hs.split_spaced hws]
  rfl

/-- Words that stand and are no options, and a whole number of seconds, arrive. -/
theorem runsAsAsked_of_survives (hs : Splitter known split) (hrepo : Stands known (program repo))
    (hiface : Survives known iface) (hname : Survives known name) (hx : 0 < x)
    (hdouble : IsDouble x) (hwhole : (⌊x⌋ : ℚ) = x) :
    RunsAsAsked split repo iface name (.finite x) := by
  have hwords : ∀ w ∈ argWords iface name x, w ≠ [] ∧ Stands known w := by
    simp only [argWords, List.forall_mem_cons]
    exact ⟨⟨plain_ifaceFlag.1, plain_ifaceFlag.2.stands⟩, ⟨hiface.ne_nil, hiface.stands⟩,
      ⟨plain_nameFlag.1, plain_nameFlag.2.stands⟩, ⟨hname.ne_nil, hname.stands⟩,
      fun w hw => ⟨(plain_wholeSeconds x w hw).1, (plain_wholeSeconds x w hw).2.stands⟩⟩
  have hparse := (parse_command_iff hx hdouble).mpr ⟨hiface.argument, hname.argument, rfl⟩
  refine ⟨_, _, _, _, installService_finite hx repo iface hname.ne_nil,
    execStartLine_of_stands hrepo fun w hw => (hwords w hw).2, split_program hs hrepo hwords,
    hparse, rfl, rfl, ?_⟩
  rw [Args.asked, hwhole]

/-! ### The first word -/

/-- The path of the daemon, at its last slash. -/
theorem program_eq (repo : Text) :
    program repo = (repo ++ "/bin".toList) ++ '/' :: "beachedmesh".toList := by
  simp [program]

theorem plain_beachedmesh : Plain "beachedmesh".toList ∧ '/' ∉ "beachedmesh".toList := by
  simp only [String.reduceToList]
  exact ⟨plain_of_all rfl, by decide⟩

/-- The first word is not the path of the daemon if it is read from beyond it. The last slash
tells: up to it no slash is lost, and after a lost character it would come too early. -/
theorem not_reads_beyond (hk : Knows known) {lead path t : Text} {b : Char}
    (hb : isBlank b = true) (hlead : ∀ c ∈ lead, isBlank c = true)
    (hpath : program repo = lead ++ path) :
    ¬ Reads known none (path ++ b :: t) (program repo) none := by
  intro h
  obtain ⟨hplain, hslash⟩ := plain_beachedmesh
  have hlast := program_eq repo
  generalize repo ++ "/bin".toList = a at hlast
  generalize "beachedmesh".toList = z at hlast hplain hslash
  have hleadSlash : '/' ∉ lead := fun hmem => by cases hlead _ hmem
  obtain ⟨a₂, ha, rfl⟩ := exists_of_append_eq (hlast.symm.trans hpath) hleadSlash
  rw [List.append_assoc, List.cons_append] at h
  obtain ⟨a', b', q, hw, hread, hrest, hcount⟩ := h.slash hk (by simp)
  have hlen := hread.length_le hk
  rw [List.length_append, List.length_append] at hlen
  have hcountLead : lead.count '/' = 0 := List.count_eq_zero.mpr hleadSlash
  have hsame : a' = a := by
    rcases List.append_eq_append_iff.mp (hlast.symm.trans hw) with ⟨m, hm, hm'⟩ | ⟨m, hm, hm'⟩
    · cases m with
      | nil => rw [hm, List.append_nil]
      | cons d m =>
        obtain ⟨rfl, rfl⟩ := List.cons.inj hm'
        simp at hslash
    · cases m with
      | nil => rw [hm, List.append_nil]
      | cons d m =>
        obtain rfl := (List.cons.inj hm').1
        have hcounts := congrArg (List.count '/') (hm.symm.trans ha)
        rw [List.count_append, List.count_append, List.count_cons_self] at hcounts
        omega
  subst hsame
  rw [ha, List.length_append] at hlen
  obtain ⟨rfl, -, -⟩ := hread.eq_of_length hk (by
    rw [ha, List.length_append, List.length_append, List.length_append]
    omega)
  exact not_reads_of_blank hplain hb hrest

/-- If the path of the daemon is the first word, it stands. -/
theorem stands_of_first {b : Char} {r l lead path : Text} (hs : Splitter known split)
    (hb : isBlank b = true) (hline : Line l) (hlead : ∀ c ∈ lead, isBlank c = true)
    (hpath : program repo = lead ++ path) (hl : l <+: path ++ b :: r) {ws : List Text}
    (h : split l = some (program repo :: ws)) :
    lead = [] ∧ Stands known (program repo) ∧ ∃ t, l = program repo ++ t ∧ Ended t ∧
      split t = some ws := by
  induction l generalizing lead path with
  | nil =>
    rw [hs.nil] at h
    cases h
  | cons c l ih =>
    obtain ⟨rest, hrest⟩ := hl
    cases path with
    | nil =>
      have hmem : '/' ∈ program repo := by
        rw [program_eq]
        simp
      rw [hpath, List.append_nil] at hmem
      cases hlead _ hmem
    | cons d path =>
      obtain ⟨rfl, hrest'⟩ := List.cons.inj hrest
      cases hc : isBlank c with
      | true =>
        rw [hs.blank hc] at h
        have hlead' : ∀ d ∈ lead ++ [c], isBlank d = true := by
          intro d hd
          rcases List.mem_append.mp hd with hd | hd
          · exact hlead d hd
          · obtain rfl := List.mem_singleton.mp hd
            exact hc
        have hpath' : program repo = (lead ++ [c]) ++ path := by
          rw [hpath]
          simp
        obtain ⟨hnil, -⟩ := ih (hline.tail (ne_backslash_of_isBlank hc)) hlead' hpath'
          ⟨rest, hrest'⟩ h
        simp at hnil
      | false =>
        obtain ⟨raw, rest', w, ws', heq, -, hended, hws, hsplit, hread, -⟩ := hs.first hline hc h
        obtain ⟨rfl, rfl⟩ := List.cons.inj hws
        have hle := hread.length_le hs.knows
        have hlen := congrArg List.length hpath
        rw [List.length_append] at hlen
        rw [heq, List.append_assoc] at hrest
        have hwithin : raw.length ≤ (c :: path).length := by
          rcases List.append_eq_append_iff.mp hrest with ⟨y, hy, -⟩ | ⟨t, rfl, ht⟩
          · rw [hy, List.length_append]
            exact Nat.le_add_right _ _
          · cases t with
            | nil => simp
            | cons d t =>
              obtain rfl := (List.cons.inj ht).1
              exact absurd hread (not_reads_beyond hs.knows hb hlead hpath)
        obtain ⟨-, hsame, hstands⟩ := hread.eq_of_length hs.knows (by omega)
        refine ⟨List.length_eq_zero_iff.mp (by omega), ?_, rest', by rw [heq, hsame], hended,
          hsplit⟩
        rw [hsame]
        exact hstands fun d hd => hline.1 d (by rw [heq]; exact List.mem_append_left _ hd)

/-! ### What the daemon reads as its name -/

/-- The name is not this one, and will not be unless the option that waits is given it. -/
def NotNamed (name : Text) (s : ArgParse.Options.State Args) : Prop :=
  s.Sound (fun a => a.name ≠ name) (· ≠ name)

theorem NotNamed.foldlM {s t : ArgParse.Options.State Args} (hs : NotNamed name s)
    {ws : List Text} (hws : ∀ v ∈ ws, ¬ name <:+ v)
    (h : ws.foldlM daemonOptions.step s = some t) : NotNamed name t :=
  (keeps_name (R := (· ≠ name))).foldlM (fun v hv u hu => by rintro rfl; exact hws v hv hu) hs h

theorem notNamed_idle {a : Args} (h : a.name ≠ name) : NotNamed name (a, none) := ⟨h, by simp⟩

theorem notNamed_waiting {a : Args} (h : a.name ≠ name) : NotNamed name (a, some storeName) :=
  ⟨h, by simpa using keeps_storeName⟩

/-- Plain words after the name that leave it as it is. -/
structure Trailing (ws : List Text) : Prop where
  plain : ∀ w ∈ ws, w ≠ [] ∧ Plain w
  keeps : ∀ {s : ArgParse.Options.State Args} {args : Args},
    ws.foldlM daemonOptions.step s = some (args, none) → args.name = s.1.name

theorem trailing_nil : Trailing [] where
  plain := by simp
  keeps := by
    intro s args h
    obtain rfl := Option.some.inj h
    rfl

theorem trailing_wholeSeconds (x : ℚ) : Trailing (wholeSeconds x) where
  plain := plain_wholeSeconds x
  keeps := by
    intro s args h
    unfold wholeSeconds at h
    split_ifs at h
    · exact trailing_nil.keeps h
    obtain ⟨a, pending⟩ := s
    rw [List.foldlM_cons] at h
    cases pending with
    | some f =>
      rw [step_not_argument not_isArgument_interval] at h
      cases h
    | none =>
      rw [step_interval, Option.bind_eq_bind, Option.bind_some, List.foldlM_cons,
        step_argument (isArgument_str _), storeInterval] at h
      cases hread : readFloat (str ⌊x⌋.toNat) with
      | none =>
        rw [hread] at h
        cases h
      | some y =>
        rw [hread] at h
        obtain ⟨rfl, -⟩ := Prod.mk.inj (Option.some.inj h)
        rfl

theorem Trailing.stands {ws : List Text} (h : Trailing ws) :
    ∀ w ∈ ws, w ≠ [] ∧ Stands known w := fun w hw => ⟨(h.plain w hw).1, (h.plain w hw).2.stands⟩

theorem Trailing.isQuote_of_mem {ws : List Text} (h : Trailing ws) :
    ∀ c ∈ spaced ws, isQuote c = false :=
  forall_mem_spaced (P := fun c => isQuote c = false) (by decide)
    fun w hw _ hc => (h.plain w hw).2.isQuote_of_mem hc

variable {ss ws : List Text} {a args : Args}

/-- The words of a part of the name, before the ones that leave it as it is. -/
theorem words_of_part (hs : Splitter known split) (hss : Trailing ss) {y : Text}
    (hy : y.length ≤ name.length) (hline : Line (y ++ spaced ss)) (hdangling : dangling y = false)
    (hsplit : split (y ++ spaced ss) = some ws) :
    ∃ ws₁, ws = ws₁ ++ ss ∧
      ((∀ v ∈ ws₁, ¬ name <:+ v) ∨ y = name ∧ Stands known name ∧ ws₁ = [name]) := by
  obtain ⟨ws₁, ws₂, rfl, hws₂, hshort⟩ := hs.words_append hline hdangling hss.isQuote_of_mem
    (ended_spaced ss) hsplit
  rw [hs.split_spaced hss.stands] at hws₂
  obtain rfl := Option.some.inj hws₂
  refine ⟨ws₁, rfl, ?_⟩
  rcases hshort with hshort | ⟨hstands, rfl⟩
  · refine Or.inl fun v hv hsuffix => ?_
    have hlt := hshort v hv
    have hle := hsuffix.length_le
    omega
  · by_cases hname : name <:+ y
    · obtain rfl := hname.eq_of_length_le hy
      exact Or.inr ⟨rfl, hstands, rfl⟩
    · exact Or.inl (by simpa using hname)

/-- After `--name`, the name is read if it is a word and stands. -/
theorem words_of_name (hs : Splitter known split) (hss : Trailing ss) (hne : name ≠ []) {y : Text}
    (hy : y.length ≤ name.length) (hline : Line (y ++ spaced ss)) (hdangling : dangling y = false)
    (hsplit : split (y ++ spaced ss) = some ws) (ha : a.name = [])
    (hparse : ws.foldlM daemonOptions.step (a, some storeName) = some (args, none))
    (hname : args.name = name) : y = name ∧ Stands known name ∧ ws = name :: ss := by
  obtain ⟨ws₁, rfl, hcase⟩ := words_of_part hs hss hy hline hdangling hsplit
  rw [List.foldlM_append] at hparse
  obtain ⟨s, hfirst, hlast⟩ := Option.bind_eq_some_iff.mp hparse
  rcases hcase with hno | ⟨rfl, hstands, rfl⟩
  · have hnot := (notNamed_waiting (by rw [ha]; exact hne.symm)).foldlM hno hfirst
    exact absurd ((hss.keeps hlast).symm.trans hname) hnot.1
  · exact ⟨rfl, hstands, rfl⟩

/-- Where no option waits, it is not read. -/
theorem name_ne_of_idle (hs : Splitter known split) (hss : Trailing ss) (hne : name ≠ []) {y : Text}
    (hy : y.length ≤ name.length) (hline : Line (y ++ spaced ss)) (hdangling : dangling y = false)
    (hsplit : split (y ++ spaced ss) = some ws) (ha : a.name = [])
    (hparse : ws.foldlM daemonOptions.step (a, none) = some (args, none)) : args.name ≠ name := by
  obtain ⟨ws₁, rfl, hcase⟩ := words_of_part hs hss hy hline hdangling hsplit
  rw [List.foldlM_append] at hparse
  obtain ⟨s, hfirst, hlast⟩ := Option.bind_eq_some_iff.mp hparse
  rw [hss.keeps hlast]
  have ha' : a.name ≠ name := by
    rw [ha]
    exact hne.symm
  rcases hcase with hno | ⟨-, -, rfl⟩
  · exact ((notNamed_idle ha').foldlM hno hfirst).1
  · rw [List.foldlM_cons] at hfirst
    obtain ⟨t, hstep, ht⟩ := Option.bind_eq_some_iff.mp hfirst
    obtain rfl := Option.some.inj ht
    refine ((keeps_name (R := (· ≠ name))).step_idle (fun u hu => ?_) ha' hstep).1
    rintro rfl
    exact lt_irrefl _ hu.2

/-! ### A name that ends in a backslash -/

/-- What ends in a backslash is not the end of a word that ends in plain characters. -/
theorem not_suffix_of_plain (hname : dangling name = true) {v z : Text} (hz : Plain z)
    (hzne : z ≠ []) (hv : z <:+ v) : ¬ name <:+ v := by
  intro hsuffix
  rcases List.suffix_or_suffix_of_suffix hsuffix hv with h | ⟨x, rfl⟩
  · exact hz.not_mem (h.subset (mem_of_dangling hname))
  · have hfalse : dangling (x ++ z) = false := by
      cases hx : dangling x with
      | true =>
        obtain ⟨c, z, rfl⟩ := List.exists_cons_of_ne_nil hzne
        rw [dangling_append_of_dangling hx]
        exact (show Plain z from fun d hd => hz d (by simp [hd])).dangling
      | false => rw [dangling_append hx, hz.dangling]
    rw [hname] at hfalse
    cases hfalse

/-- The words of a part of such a name with the words after it. -/
theorem no_name_of_dangling (hs : Splitter known split) (hss : Trailing ss)
    (hname : dangling name = true) {y : Text} (hy : y.length ≤ name.length)
    (hline : Line (y ++ spaced ss)) (hdangling : dangling y = true)
    (hsplit : split (y ++ spaced ss) = some ws) : ∀ v ∈ ws, ¬ name <:+ v := by
  cases ss with
  | nil =>
    have hno : dangling y = false := by simpa [spaced] using hline.2
    rw [hdangling] at hno
    cases hno
  | cons z ss =>
    obtain ⟨hz, htail⟩ := List.forall_mem_cons.mp hss.plain
    rw [spaced_cons] at hline hsplit
    have hquote : ∀ c ∈ spaced ss, isQuote c = false :=
      forall_mem_spaced (P := fun c => isQuote c = false) (by decide)
        fun w hw _ hc => (htail w hw).2.isQuote_of_mem hc
    obtain ⟨ws₁, w, ws₂, rfl, hws₂, hshort, hw⟩ := hs.words_dangling hline hdangling hz.2 hquote
      (ended_spaced ss) hsplit
    rw [hs.split_spaced fun w hw => ⟨(htail w hw).1, (htail w hw).2.stands⟩] at hws₂
    obtain rfl := Option.some.inj hws₂
    intro v hv hsuffix
    rcases List.mem_append.mp hv with hv | hv
    · have hlt := hshort v hv
      have hle := hsuffix.length_le
      omega
    · rcases List.mem_cons.mp hv with rfl | hv
      · exact not_suffix_of_plain hname hz.2 hz.1 hw hsuffix
      · exact not_suffix_of_plain hname (htail v hv).2 (htail v hv).1 List.suffix_rfl hsuffix

/-! ### The interface -/

/-- The word after `-i` is read from the interface alone, or it reaches over `--name`. -/
theorem first_of_iface (hs : Splitter known split) (hiface : ∀ c ∈ iface, isBlank c = false)
    (hne : iface ≠ []) {flag u : Text} (hflag : Plain flag)
    (hline : Line (iface ++ ' ' :: (flag ++ ' ' :: u)))
    (hsplit : split (iface ++ ' ' :: (flag ++ ' ' :: u)) = some ws) :
    ∃ raw w ws' rest, ws = w :: ws' ∧ Reads known none raw w none ∧ Line rest ∧ Ended rest ∧
      split rest = some ws' ∧
      (raw = iface ∧ rest = ' ' :: (flag ++ ' ' :: u) ∨
        ∃ r, raw = iface ++ ' ' :: (flag ++ r) ∧ ' ' :: u = r ++ rest) := by
  obtain ⟨c, t, rfl⟩ := List.exists_cons_of_ne_nil hne
  obtain ⟨raw, rest, w, ws', heq, -, hended, rfl, hws', hread, hline'⟩ :=
    hs.first hline (hiface c (by simp)) hsplit
  refine ⟨raw, w, ws', rest, rfl, hread, hline', hended, hws', ?_⟩
  have heq' : c :: t ++ ' ' :: (flag ++ ' ' :: u) = raw ++ rest := heq
  rcases List.append_eq_append_iff.mp heq' with ⟨r, rfl, hr⟩ | ⟨x, hx, rfl⟩
  · cases r with
    | nil => exact Or.inl ⟨by simp, hr.symm⟩
    | cons d r =>
      obtain ⟨rfl, htail⟩ := List.cons.inj hr
      have htail' : flag ++ ' ' :: u = r ++ rest := htail
      rcases List.append_eq_append_iff.mp htail' with ⟨r', rfl, hr'⟩ | ⟨x, rfl, rfl⟩
      · exact Or.inr ⟨r', rfl, hr'⟩
      · cases x with
        | nil => exact Or.inr ⟨[], by simp, rfl⟩
        | cons d x =>
          rw [List.cons_append, ended_cons_iff] at hended
          simp [hflag.isBlank_of_mem (c := d) (by simp)] at hended
  · cases x with
    | nil => exact Or.inl ⟨by simpa using hx.symm, rfl⟩
    | cons d x =>
      rw [List.cons_append, ended_cons_iff] at hended
      simp [hiface d (by rw [hx]; simp)] at hended

/-- What is left of a space and a text, without the space. -/
theorem exists_of_suffix_cons (hs : Splitter known split) {r y u t : Text} (h : ' ' :: u = r ++ y)
    (hline : Line (y ++ t)) : ∃ y', y'.length ≤ u.length ∧ dangling y' = dangling y ∧
      Line (y' ++ t) ∧ split (y' ++ t) = split (y ++ t) := by
  cases r with
  | nil =>
    obtain rfl : ' ' :: u = y := h
    exact ⟨u, le_rfl, (dangling_cons (by decide) u).symm, hline.tail (by decide),
      (hs.blank rfl).symm⟩
  | cons d r =>
    have hu : u = r ++ y := (List.cons.inj h).2
    exact ⟨y, by simp [hu], rfl, hline, rfl⟩

theorem dangling_flag (s t : Text) : dangling (s ++ ' ' :: ("--name".toList ++ ' ' :: t)) =
    dangling t := by
  have hname : '\\' ∉ "name ".toList := by simp
  have heq : ' ' :: ("--name".toList ++ ' ' :: t) = ' ' :: '-' :: '-' :: ("name ".toList ++ t) := by
    simp
  rw [heq, dangling_append_cons_cons (by decide) (by decide), dangling_cons (by decide),
    dangling_append_of_not_mem hname]

/-- If the word after `-i` reaches over `--name`, the name is not read. -/
theorem name_ne_of_reach (hs : Splitter known split) (hss : Trailing ss) (hne : name ≠ [])
    {part : Text} (hlen : part.length ≤ name.length) (hpart : part = name ∨ ss = [])
    {raw rest w r : Text} (hread : Reads known none raw w none)
    (hraw : raw = iface ++ ' ' :: ("--name".toList ++ r))
    (hrest : ' ' :: (part ++ spaced ss) = r ++ rest) (hline : Line rest) (hended : Ended rest)
    (hsplit : split rest = some ws) (ha : a.name = [])
    (hparse : ws.foldlM daemonOptions.step (a, none) = some (args, none)) : args.name ≠ name := by
  have hidle : NotNamed name (a, none) := notNamed_idle (by rw [ha]; exact hne.symm)
  have hall : raw ++ rest =
      (iface ++ ' ' :: ("--name".toList ++ ' ' :: part)) ++ spaced ss := by
    rw [hraw, List.append_assoc, List.cons_append, List.append_assoc, ← hrest]
    simp
  have hcancel {y : Text} (hy : iface ++ ' ' :: ("--name".toList ++ ' ' :: part) = raw ++ y) :
      ' ' :: part = r ++ y := by
    rw [hraw, List.append_assoc, List.cons_append, List.append_assoc] at hy
    exact List.append_cancel_left (List.cons.inj (List.append_cancel_left hy)).2
  have hflag := dangling_flag iface part
  generalize iface ++ ' ' :: ("--name".toList ++ ' ' :: part) = all at hall hcancel hflag
  cases hdangling : dangling part with
  | false =>
    rw [hdangling] at hflag
    obtain ⟨y, hy, rfl⟩ := hread.within hs.knows hall hflag hss.isQuote_of_mem (ended_spaced ss)
    obtain ⟨y', hy', hd, hline', hsame⟩ := exists_of_suffix_cons hs (hcancel hy) hline
    rw [hy, hread.dangling_append hs.knows (by simp), ← hd] at hflag
    exact name_ne_of_idle hs hss hne (hy'.trans hlen) hline' hflag (hsame.trans hsplit) ha hparse
  | true =>
    rw [hdangling] at hflag
    cases ss with
    | nil =>
      have hno := hread.dangling_append hs.knows (by simp) rest
      rw [hall, hline.2, show spaced [] = [] from rfl, List.append_nil, hflag] at hno
      cases hno
    | cons z ss =>
      obtain rfl := hpart.resolve_right (by simp)
      obtain ⟨hz, htail⟩ := List.forall_mem_cons.mp hss.plain
      have hquote : ∀ c ∈ spaced ss, isQuote c = false :=
        forall_mem_spaced (P := fun c => isQuote c = false) (by decide)
          fun w hw _ hc => (htail w hw).2.isQuote_of_mem hc
      have hall' : raw ++ rest = (all ++ ' ' :: z) ++ spaced ss := by
        rw [hall, spaced_cons]
        simp
      rcases hread.within_of_dangling hs.knows hall' hflag hz.2 hquote (ended_spaced ss) hended with
        ⟨-, rfl⟩ | ⟨y, hy, rfl⟩
      · rw [hs.split_spaced fun w hw => ⟨(htail w hw).1, (htail w hw).2.stands⟩] at hsplit
        obtain rfl := Option.some.inj hsplit
        exact (hidle.foldlM (fun v hv => not_suffix_of_plain hdangling (htail v hv).2
          (htail v hv).1 List.suffix_rfl) hparse).1
      · rw [← spaced_cons] at hline hsplit
        obtain ⟨y', hy', hd, hline', hsame'⟩ := exists_of_suffix_cons hs (hcancel hy) hline
        rw [hy, hread.dangling_append hs.knows (by simp), ← hd] at hflag
        exact (hidle.foldlM (no_name_of_dangling hs hss hdangling hy' hline' hflag
          (hsame'.trans hsplit)) hparse).1

/-- Without an interface, `-i` finds no argument. -/
theorem iface_ne_nil_of_parse (hs : Splitter known split) {u : Text}
    (hsplit : split (iface ++ ' ' :: ("--name".toList ++ ' ' :: u)) = some ws)
    (hparse : ws.foldlM daemonOptions.step (Args.defaults, some storeIface) = some (args, none)) :
    iface ≠ [] := by
  rintro rfl
  rw [List.nil_append, hs.blank rfl] at hsplit
  obtain ⟨ws, rfl, -⟩ :=
    hs.stands_inv plain_nameFlag.1 plain_nameFlag.2.stands (ended_cons_iff.mpr rfl) hsplit
  rw [List.foldlM_cons, step_not_argument not_isArgument_name] at hparse
  cases hparse

/-- The words after `-i`, if the name is what the daemon reads from them. -/
theorem words_of_parse (hs : Splitter known split) (hiface : ∀ c ∈ iface, isBlank c = false)
    (hss : Trailing ss) (hne : name ≠ []) {part : Text} (hlen : part.length ≤ name.length)
    (hpart : part = name ∨ ss = [])
    (hline : Line (iface ++ ' ' :: ("--name".toList ++ ' ' :: (part ++ spaced ss))))
    (hsplit : split (iface ++ ' ' :: ("--name".toList ++ ' ' :: (part ++ spaced ss))) = some ws)
    (hparse : ws.foldlM daemonOptions.step (Args.defaults, some storeIface) = some (args, none))
    (hname : args.name = name) :
    part = name ∧ Stands known name ∧ ∃ w, ws = w :: "--name".toList :: name :: ss ∧
      Reads known none iface w none := by
  have hifaceNe := iface_ne_nil_of_parse hs hsplit hparse
  obtain ⟨raw, w, ws', rest, rfl, hread, hline', hended, hsplit', hcase⟩ :=
    first_of_iface hs hiface hifaceNe plain_nameFlag.2 hline hsplit
  -- the first word is the argument of `-i`
  rw [List.foldlM_cons] at hparse
  obtain ⟨s, hstep, hparse'⟩ := Option.bind_eq_some_iff.mp hparse
  obtain ⟨-, a, ha, rfl⟩ := ArgParse.Options.step_waiting_iff.mp hstep
  obtain rfl := Option.some.inj ha
  rcases hcase with ⟨rfl, rfl⟩ | ⟨r, hraw, hr⟩
  · -- then `--name` follows
    rw [hs.blank rfl] at hsplit'
    obtain ⟨ws, rfl, hws⟩ :=
      hs.stands_inv plain_nameFlag.1 plain_nameFlag.2.stands (ended_cons_iff.mpr rfl) hsplit'
    rw [hs.blank rfl] at hws
    rw [List.foldlM_cons, step_name, Option.bind_eq_bind, Option.bind_some] at hparse'
    have hpartLine : Line (part ++ spaced ss) := by
      have hflag := Line.of_append (s := raw ++ ' ' :: ("--name".toList ++ [' ']))
        (t := part ++ spaced ss) (by simpa using hline) (by
          have := dangling_flag raw (part ++ spaced ss)
          simpa using this)
      exact hflag
    cases hdangling : dangling part with
    | false =>
      obtain ⟨rfl, hstands, rfl⟩ := words_of_name hs hss hne hlen hpartLine hdangling hws rfl
        hparse' hname
      exact ⟨rfl, hstands, w, rfl, hread⟩
    | true =>
      have hnameDangling : dangling name = true := by
        rcases hpart with rfl | rfl
        · exact hdangling
        · have hno := hpartLine.2
          rw [show spaced [] = [] from rfl, List.append_nil, hdangling] at hno
          cases hno
      have hwait : NotNamed name ({ Args.defaults with iface := some w }, some storeName) :=
        notNamed_waiting hne.symm
      have hnot := hwait.foldlM
        (no_name_of_dangling hs hss hnameDangling hlen hpartLine hdangling hws) hparse'
      exact absurd hname hnot.1
  · exact absurd hname (name_ne_of_reach hs hss hne hlen hpart hread hraw hr hline' hended
      hsplit' rfl hparse')

/-! ### What arrives -/

/-- What the line has of the name and of the words after it. -/
theorem name_part (name : Text) (x : ℚ) :
    ∃ part ss, (name ++ spaced (wholeSeconds x)).takeWhile (! isBreak ·) = part ++ spaced ss ∧
      Trailing ss ∧ part.length ≤ name.length ∧
      (part = name ∧ ss = wholeSeconds x ∨ ss = [] ∧ ∃ c ∈ name, isBreak c = true) := by
  by_cases hname : ∃ c ∈ name, isBreak c = true
  · refine ⟨name.takeWhile (! isBreak ·), [], ?_, trailing_nil,
      (List.takeWhile_prefix _).length_le, Or.inr ⟨rfl, hname⟩⟩
    have hcut : (name.takeWhile (! isBreak ·)).length ≠ name.length := by
      intro hlen
      obtain ⟨c, hc, hbreak⟩ := hname
      have hall := List.takeWhile_eq_self_iff.mp
        ((List.takeWhile_prefix (! isBreak ·)).eq_of_length hlen) c hc
      simp [hbreak] at hall
    rw [List.takeWhile_append, if_neg hcut]
    simp [spaced]
  · refine ⟨name, wholeSeconds x, ?_, trailing_wholeSeconds x, le_rfl, Or.inl ⟨rfl, rfl⟩⟩
    refine List.takeWhile_eq_self_iff.mpr fun c hc => ?_
    rcases List.mem_append.mp hc with hc | hc
    · simpa using fun hbreak => hname ⟨c, hc, hbreak⟩
    · have hplain := forall_mem_spaced (P := fun c => isBreak c = false) (by decide)
        (fun w hw c hc => isBreak_eq_false ((plain_wholeSeconds x w hw).2.isBlank_of_mem hc)) c hc
      simp [hplain]

/-- The line, if the path of the daemon has no break. -/
theorem commandLine_eq (hrepo : Stands known (program repo))
    (hiface : ∀ c ∈ iface, isBlank c = false) :
    commandLine repo iface name x = program repo ++ ' ' :: ("-i".toList ++ ' ' :: (iface ++
      ' ' :: ("--name".toList ++ ' ' ::
        (name ++ spaced (wholeSeconds x)).takeWhile (! isBreak ·)))) := by
  have hpath : ∀ c ∈ program repo, (! isBreak c) = true := fun c hc => by
    simp [hrepo.isBreak_of_mem c hc]
  have hword : ∀ c ∈ iface, (! isBreak c) = true := fun c hc => by
    simp [isBreak_eq_false (hiface c hc)]
  have hspace (t : Text) : (' ' :: t).takeWhile (! isBreak ·) = ' ' :: t.takeWhile (! isBreak ·) :=
    List.takeWhile_cons_of_pos (by decide)
  have hiFlag : ∀ c ∈ "-i".toList, (! isBreak c) = true := by
    simp only [String.reduceToList]
    exact List.all_eq_true.mp rfl
  have hnameFlag : ∀ c ∈ "--name".toList, (! isBreak c) = true := by
    simp only [String.reduceToList]
    exact List.all_eq_true.mp rfl
  rw [commandLine, argWords, spaced_cons, spaced_cons, spaced_cons, spaced_cons,
    List.takeWhile_append_of_pos hpath, hspace, List.takeWhile_append_of_pos hiFlag, hspace,
    List.takeWhile_append_of_pos hword, hspace, List.takeWhile_append_of_pos hnameFlag, hspace]

/-- What arrives stood, was no option, and a whole number of seconds. -/
theorem survives_of_runsAsAsked (hs : Splitter known split)
    (hiface : ∀ c ∈ iface, isBlank c = false) (hne : name ≠ []) (hx : 0 < x)
    (hdouble : IsDouble x) (h : RunsAsAsked split repo iface name (.finite x)) :
    Stands known (program repo) ∧ Survives known iface ∧ Survives known name ∧
      (⌊x⌋ : ℚ) = x := by
  obtain ⟨hdangling, argv, args, hsplit, hparse, hargIface, hargName, hargInterval⟩ :=
    (runsAsAsked_iff hx hne).mp h
  have hline := line_commandLine hdangling
  have hpre : commandLine repo iface name x <+: program repo ++
      ' ' :: ("-i".toList ++ spaced (iface :: "--name".toList :: name :: wholeSeconds x)) :=
    List.takeWhile_prefix _
  have hpath : program repo = [] ++ program repo := rfl
  obtain ⟨-, hrepo, t, ht, -, hargv⟩ :=
    stands_of_first hs (by decide) hline (by simp) hpath hpre hsplit
  obtain ⟨part, ss, hpart, hss, hlen, hcase⟩ := name_part name x
  rw [commandLine_eq hrepo hiface, hpart] at ht hline
  obtain rfl := List.append_cancel_left ht
  -- `-i`, and the line from the interface on
  rw [hs.blank rfl] at hargv
  obtain ⟨ws, rfl, hws⟩ := hs.stands_inv plain_ifaceFlag.1 plain_ifaceFlag.2.stands
    (ended_cons_iff.mpr rfl) hargv
  rw [hs.blank rfl] at hws
  have hline' : Line (iface ++ ' ' :: ("--name".toList ++ ' ' :: (part ++ spaced ss))) := by
    have hflag : Line ("-i".toList ++ ' ' :: (iface ++ ' ' :: ("--name".toList ++ ' ' ::
        (part ++ spaced ss)))) :=
      (Line.of_append hline (hrepo.dangling_append _)).tail (by decide)
    have hstands : Stands known "-i".toList := plain_ifaceFlag.2.stands
    exact (Line.of_append hflag (hstands.dangling_append _)).tail (by decide)
  have hfold := ArgParse.Options.parse_eq_some_iff.mp (Option.filter_eq_some_iff.mp hparse).1
  rw [List.foldlM_cons, step_iface, Option.bind_eq_bind, Option.bind_some] at hfold
  have hifaceNe := iface_ne_nil_of_parse hs hws hfold
  obtain ⟨rfl, hname, w, rfl, hread⟩ := words_of_parse hs hiface hss hne hlen
    (hcase.imp And.left And.left) hline' hws hfold hargName
  obtain ⟨-, rfl⟩ := hcase.resolve_right fun ⟨_, c, hc, hbreak⟩ => by
    simp [hname.isBreak_of_mem c hc] at hbreak
  obtain ⟨hargW, hargN, rfl⟩ := (parse_command_iff hx hdouble).mp hparse
  obtain rfl : w = iface := Option.some.inj hargIface
  have hword := (hread.eq_of_length hs.knows rfl).2.2 fun c hc => isBreak_eq_false (hiface c hc)
  exact ⟨hrepo, ⟨hifaceNe, hword, hargW⟩, ⟨hne, hname, hargN⟩, PyFloat.finite.inj hargInterval⟩

/-- The service runs what setup was asked to run just when the path of the daemon, the
interface and the name stand for themselves, neither of the two is taken for an option, and
the interval is a whole number of seconds. -/
theorem service_runs_as_asked_iff {known : Text → Prop} {split : Text → Option (List Text)}
    (hs : Splitter known split) {repo iface name : Text} {interval : PyFloat}
    (hiface : ∀ c ∈ iface, isBlank c = false) (hne : name ≠ []) (hfloat : interval.IsFloat)
    (hpos : interval.Positive) :
    RunsAsAsked split repo iface name interval ↔
      Stands known (program repo) ∧ Survives known iface ∧ Survives known name ∧
        ∃ n : ℕ, interval = .finite n := by
  constructor
  · intro h
    cases interval with
    | nan => exact absurd hpos id
    | infinite negative =>
      obtain ⟨file, line, argv, args, hfile, -⟩ := h
      rw [installService_infinite] at hfile
      cases hfile
    | finite x =>
      obtain ⟨hrepo, hsurvIface, hsurvName, hwhole⟩ :=
        survives_of_runsAsAsked hs hiface hne hpos hfloat h
      refine ⟨hrepo, hsurvIface, hsurvName, ⌊x⌋.toNat, ?_⟩
      have hcast : ((⌊x⌋.toNat : ℕ) : ℚ) = ⌊x⌋ := by
        exact_mod_cast Int.toNat_of_nonneg (Int.floor_nonneg.mpr (le_of_lt hpos))
      rw [hcast, hwhole]
  · rintro ⟨hrepo, hsurvIface, hsurvName, n, rfl⟩
    exact runsAsAsked_of_survives hs hrepo hsurvIface hsurvName hpos hfloat (by simp)

theorem isDouble_of_natCast {n : ℕ} (h : n < 2 ^ 53) : IsDouble n :=
  ⟨n, 0, by simpa using h, by norm_num, by norm_num, by simp⟩

theorem plain_wlan1 : Plain "wlan1".toList := by
  simp only [String.reduceToList]
  exact plain_of_all rfl

theorem survives_wlan1 : Survives known "wlan1".toList :=
  (survives_iff plain_wlan1).mpr ⟨by simp, Or.inl (by simp)⟩

theorem survives_pi4 : Survives known "pi4".toList := by
  refine (survives_iff ?_).mpr ⟨by simp, Or.inl (by simp)⟩
  simp only [String.reduceToList]
  exact plain_of_all rfl

theorem stands_opt : Stands known (program "/opt/wifipi".toList) := by
  refine Plain.stands ?_
  simp only [program, String.reduceToList]
  exact plain_of_all rfl

/-- A node announcing every minute, as one does while testing. -/
theorem service_runs_as_asked_pi4 :
    RunsAsAsked splitBare "/opt/wifipi".toList "wlan1".toList "pi4".toList (.finite (60 : ℕ)) := by
  have hfloat : (PyFloat.finite (60 : ℕ)).IsFloat := isDouble_of_natCast (by norm_num)
  have hpos : (PyFloat.finite (60 : ℕ)).Positive := by norm_num [PyFloat.Positive]
  exact (service_runs_as_asked_iff splitter_splitBare (fun c hc => plain_wlan1.isBlank_of_mem hc)
    (by simp) hfloat hpos).mpr ⟨stands_opt, survives_wlan1, survives_pi4, 60, rfl⟩

/-- A name of two words, or half a second between announces, is not what runs. -/
theorem service_runs_otherwise :
    ¬ RunsAsAsked splitBare "/opt/wifipi".toList "wlan1".toList "my node".toList
        (.finite announceInterval) ∧
      ¬ RunsAsAsked splitBare "/opt/wifipi".toList "wlan1".toList "pi4".toList
        (.finite (1 / 2)) := by
  constructor
  · intro h
    have hdouble : IsDouble announceInterval := ⟨21600, 0, by norm_num, by norm_num, by norm_num,
      by norm_num [announceInterval]⟩
    obtain ⟨-, -, hname, -⟩ := survives_of_runsAsAsked splitter_splitBare
      (fun c hc => plain_wlan1.isBlank_of_mem hc) (by simp) (by norm_num [announceInterval])
      hdouble h
    have hspace := (stands_iff_plain (by simp)).mp hname.stands ' ' (by simp)
    exact absurd hspace (by decide)
  · intro h
    have hdouble : IsDouble (1 / 2) := ⟨1, -1, by norm_num, by norm_num, by norm_num, by norm_num⟩
    have hwhole := (survives_of_runsAsAsked splitter_splitBare
      (fun c hc => plain_wlan1.isBlank_of_mem hc) (by simp) (by norm_num) hdouble h).2.2.2
    norm_num at hwhole

end Beachedmesh
