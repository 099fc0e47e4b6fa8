import Beachedmesh.Control
import Beachedmesh.Support.ArgParse
import Beachedmesh.Support.Doubles

/-!
# The options of the daemon

What `bin/beachedmesh` accepts on its command line, with `float` as the language has it.
-/
namespace Beachedmesh
open PyText Doubles

/-! ### Floats -/

/-- A run of digits with single underscores between them: its value, its length and what
follows. -/
def digitPart (value count : ℕ) : Text → ℕ × ℕ × Text
  | [] => (value, count, [])
  | ch :: cs =>
    match digit? ch with
    | some d => digitPart (10 * value + d) (count + 1) cs
    | none =>
      if ch = '_' ∧ 0 < count ∧ (cs.head?.bind digit?).isSome then digitPart value count cs
      else (value, count, ch :: cs)

/-- The sign of a number, and the rest. -/
def readSign : Text → Bool × Text
  | '-' :: cs => (true, cs)
  | '+' :: cs => (false, cs)
  | cs => (false, cs)

/-- What follows the digits of a float. -/
def readExponent : Text → Option ℤ
  | [] => some 0
  | ch :: cs =>
    if ch = 'e' ∨ ch = 'E' then
      match digitPart 0 0 (readSign cs).2 with
      | (e, n, []) => if n = 0 then none else some (if (readSign cs).1 then -e else e)
      | _ => none
    else none

def readFraction : Text → ℕ × ℕ × Text
  | '.' :: cs => digitPart 0 0 cs
  | cs => (0, 0, cs)

/-- A decimal number without its sign. -/
def readUnsigned (cs : Text) : Option ℚ :=
  match digitPart 0 0 cs with
  | (i, n, rest) =>
    match readFraction rest with
    | (f, k, rest) =>
      if n + k = 0 then none else (readExponent rest).map fun e => (i + f / 10 ^ k) * 10 ^ e

/-- `float(s)`, with `none` for its `ValueError`. -/
def readFloat (s : Text) : Option PyFloat :=
  let negative := (readSign (stripNumber s)).1
  let body := (readSign (stripNumber s)).2
  let lower := String.ofList (body.map Char.toLower)
  if lower = "inf" ∨ lower = "infinity" then some (.infinite negative)
  else if lower = "nan" then some .nan
  else (readUnsigned body).map fun x =>
    match toDouble (if negative then -x else x) with
    | some y => .finite y
    | none => .infinite negative

/-- A number that a `float` can be. -/
def PyFloat.IsFloat : PyFloat → Prop
  | .finite x => IsDouble x
  | .infinite _ => True
  | .nan => True

/-! ### Options -/

structure Args where
  iface : Option Text
  name : Text
  key : Text
  db : Text
  announceInterval : PyFloat
  hopLimit : ℤ
  statusEvery : PyFloat
  verbose : Bool
  socket : Text
  noConfigure : Bool
  noListenCheck : Bool

def Args.defaults : Args where
  iface := none
  name := []
  key := "/var/lib/beachedmesh/node.key".toList
  db := "/var/lib/beachedmesh/routes.db".toList
  announceInterval := .finite Beachedmesh.announceInterval
  hopLimit := defaultHopLimit
  statusEvery := .finite 300
  verbose := false
  socket := "/run/beachedmesh.sock".toList
  noConfigure := false
  noListenCheck := false

open ArgParse in
/-- `-h`, which exits. -/
def help : Action Args := .flag fun _ => none

def storeIface (t : Text) (a : Args) : Option Args := some { a with iface := some t }

def storeName (t : Text) (a : Args) : Option Args := some { a with name := t }

def storeInterval (t : Text) (a : Args) : Option Args :=
  (readFloat t).map fun x => { a with announceInterval := x }

open ArgParse in
def daemonOptions : Options Args where
  short := [('h', help), ('i', .store storeIface),
    ('v', .flag fun a => some { a with verbose := true })]
  long := [("--help".toList, help), ("--iface".toList, .store storeIface),
    ("--name".toList, .store storeName),
    ("--key".toList, .store fun t a => some { a with key := t }),
    ("--db".toList, .store fun t a => some { a with db := t }),
    ("--announce-interval".toList, .store storeInterval),
    ("--hop-limit".toList,
      .store fun t a => (readInt (String.ofList t)).map fun n => { a with hopLimit := n }),
    ("--status-every".toList,
      .store fun t a => (readFloat t).map fun x => { a with statusEvery := x }),
    ("--verbose".toList, .flag fun a => some { a with verbose := true }),
    ("--socket".toList, .store fun t a => some { a with socket := t }),
    ("--no-configure".toList, .flag fun a => some { a with noConfigure := true }),
    ("--no-listen-check".toList, .flag fun a => some { a with noListenCheck := true })]
  decimal ch := (digit? ch).isSome

/-- `p.parse_args()` on the words after the program; `-i` is required. -/
def parseArgs (argv : List Text) : Option Args :=
  (daemonOptions.parse argv Args.defaults).filter fun a => a.iface.isSome

/-! ### Reading numerals back -/

theorem toNat_of_isDigit {c : Char} (h : c.isDigit = true) : 48 ≤ c.toNat ∧ c.toNat ≤ 57 :=
  Char.isDigit_iff_toNat.mp h

theorem digit?_of_isDigit {c : Char} (h : c.isDigit = true) : digit? c = some (c.toNat - 48) := by
  obtain ⟨hlo, hhi⟩ := toNat_of_isDigit h
  have hlt : c.toNat < 58 := by omega
  simp [digit?, decimalZeros, hlo, hlt]

theorem digitPart_of_isDigit {cs : Text} (h : ∀ c ∈ cs, c.isDigit = true) (value count : ℕ) :
    digitPart value count cs = (Nat.ofDigitChars 10 cs value, count + cs.length, []) := by
  induction cs generalizing value count with
  | nil => simp [digitPart]
  | cons c cs ih =>
    simp only [digitPart, digit?_of_isDigit (h c (by simp)), ih fun d hd => h d (by simp [hd]),
      Nat.ofDigitChars_cons, List.length_cons]
    rw [Nat.add_assoc, Nat.add_comm 1]
    rfl

theorem str_ne_nil (n : ℕ) : str n ≠ [] := Nat.toDigits_ne_nil

theorem isSpace_of_isDigit {c : Char} (h : c.isDigit = true) : isSpace c = false := by
  obtain ⟨hlo, hhi⟩ := toNat_of_isDigit h
  simp only [isSpace]
  simp
  omega

theorem stripNumber_of_isDigit {cs : Text} (h : ∀ c ∈ cs, c.isDigit = true) :
    stripNumber cs = cs := by
  have hdrop : ∀ l : Text, (∀ c ∈ l, c.isDigit = true) → l.dropWhile isNumberSpace = l := by
    intro l hl
    cases l with
    | nil => rfl
    | cons c l =>
      have hspace := isSpace_of_isDigit (hl c (by simp))
      exact List.dropWhile_cons_of_neg (by simp [isNumberSpace, hspace])
  rw [stripNumber, hdrop cs h, hdrop _ fun c hc => h c (List.mem_reverse.mp hc),
    List.reverse_reverse]

theorem readUnsigned_str (n : ℕ) : readUnsigned (str n) = some (n : ℚ) := by
  have hdigits := digitPart_of_isDigit (fun c hc => isDigit_of_mem_str (n := n) hc) 0 0
  have hvalue : Nat.ofDigitChars 10 (str n) 0 = n := Nat.ofDigitChars_ten_toDigits
  have hlen : (str n).length ≠ 0 := by simp [str_ne_nil]
  rw [hvalue, Nat.zero_add] at hdigits
  simp [readUnsigned, hdigits, readFraction, hlen, readExponent]

theorem readSign_of_isDigit {cs : Text} (h : ∀ c ∈ cs, c.isDigit = true) :
    readSign cs = (false, cs) := by
  unfold readSign
  split
  · exact absurd (h '-' (by simp)) (by decide)
  · exact absurd (h '+' (by simp)) (by decide)
  · rfl

theorem toLower_of_isDigit {c : Char} (h : c.isDigit = true) : c.toLower = c := by
  have hhi := (toNat_of_isDigit h).2
  refine dif_neg fun hupper => ?_
  have hlo : 65 ≤ c.toNat := hupper.1
  omega

/-- A numeral is not one of the words that `float` knows. -/
theorem lower_ne_of_isDigit {cs : Text} (h : ∀ c ∈ cs, c.isDigit = true) {s : String} {c : Char}
    (hs : c ∈ s.toList) (hc : c.isDigit = false) : String.ofList (cs.map Char.toLower) ≠ s := by
  rintro rfl
  rw [String.toList_ofList] at hs
  obtain ⟨d, hd, rfl⟩ := List.mem_map.mp hs
  rw [toLower_of_isDigit (h d hd), h d hd] at hc
  cases hc

/-- A whole number that is a double is read as it was written. -/
theorem readFloat_str {n : ℕ} (h : IsDouble n) : readFloat (str n) = some (.finite n) := by
  have hdigit : ∀ c ∈ str n, c.isDigit = true := fun c hc => isDigit_of_mem_str hc
  have hword : ∀ {s : String}, 'n' ∈ s.toList → String.ofList ((str n).map Char.toLower) ≠ s :=
    fun hs => lower_ne_of_isDigit hdigit hs (by decide)
  have hinf := hword (s := "inf") (by simp)
  have hinfinity := hword (s := "infinity") (by simp)
  have hnan := hword (s := "nan") (by simp)
  simp only [readFloat, stripNumber_of_isDigit hdigit, readSign_of_isDigit hdigit, hinf, hinfinity,
    hnan, or_self, if_false, readUnsigned_str, Option.map_some, Bool.false_eq_true,
    toDouble_of_isDouble h]

/-! ### The options that setup writes -/

theorem lookup_name : daemonOptions.long.lookup "--name".toList = some (.store storeName) := by
  simp only [daemonOptions, String.reduceToList]
  rfl

theorem lookup_interval :
    daemonOptions.long.lookup "--announce-interval".toList = some (.store storeInterval) := by
  simp only [daemonOptions, String.reduceToList]
  rfl

theorem step_iface (a : Args) :
    daemonOptions.step (a, none) "-i".toList = some (a, some storeIface) := by
  simp only [String.reduceToList]
  exact ArgParse.Options.step_short (by decide) rfl a

theorem step_name (a : Args) :
    daemonOptions.step (a, none) "--name".toList = some (a, some storeName) :=
  ArgParse.Options.step_long (by simp only [String.reduceToList]; rfl) lookup_name a

theorem step_interval (a : Args) :
    daemonOptions.step (a, none) "--announce-interval".toList = some (a, some storeInterval) :=
  ArgParse.Options.step_long (by simp only [String.reduceToList]; rfl) lookup_interval a

theorem not_isArgument_name : daemonOptions.isArgument "--name".toList = false :=
  ArgParse.Options.not_isArgument_of_long (by simp only [String.reduceToList]; rfl) lookup_name

theorem not_isArgument_interval :
    daemonOptions.isArgument "--announce-interval".toList = false :=
  ArgParse.Options.not_isArgument_of_long (by simp only [String.reduceToList]; rfl)
    lookup_interval

/-- What the daemon takes for an argument: no digit and no point names an option. -/
theorem isArgument_iff {t : Text} (ht : ' ' ∉ t) : daemonOptions.isArgument t = true ↔
    t.head? ≠ some '-' ∨ t = ['-'] ∨ daemonOptions.isNegativeNumber t = true := by
  refine ArgParse.Options.isArgument_iff ht (by decide) fun c hc => ?_
  have hne : ∀ d : Char, d ≠ '.' → digit? d = none → c ≠ d := by
    rintro d hdot hdigit rfl
    have : (digit? c).isSome = true := hc.resolve_left hdot
    simp [hdigit] at this
  have hh := hne 'h' (by decide) (by decide)
  have hi := hne 'i' (by decide) (by decide)
  have hv := hne 'v' (by decide) (by decide)
  simp [daemonOptions, List.lookup_cons, beq_false_of_ne hh, beq_false_of_ne hi,
    beq_false_of_ne hv]

variable {R : Text → Prop} {Q : Text → Prop}

theorem keeps_store {f : Text → Args → Option Args}
    (h : ∀ t a a', f t a = some a' → a'.name = a.name) :
    (ArgParse.Action.store f).Keeps (fun a => R a.name) Q := by
  intro t a a' _ ha hf
  show R a'.name
  rwa [h t a a' hf]

theorem keeps_map {β : Type} {read : Text → Option β} {put : β → Args → Args}
    (h : ∀ b a, (put b a).name = a.name) :
    (ArgParse.Action.store fun t a => (read t).map (put · a)).Keeps (fun a => R a.name) Q := by
  refine keeps_store fun t a a' hf => ?_
  obtain ⟨b, -, rfl⟩ := Option.map_eq_some_iff.mp hf
  exact h b a

theorem keeps_put {put : Text → Args → Args} (h : ∀ t a, (put t a).name = a.name) :
    (ArgParse.Action.store fun t a => some (put t a)).Keeps (fun a => R a.name) Q := by
  refine keeps_store fun t a a' hf => ?_
  obtain rfl := Option.some.inj hf
  exact h t a

theorem keeps_set {set : Args → Args} (h : ∀ a, (set a).name = a.name) :
    (ArgParse.Action.flag fun a => some (set a)).Keeps (fun a => R a.name) Q := by
  intro a a' ha hf
  obtain rfl := Option.some.inj hf
  show R (set a).name
  rwa [h a]

theorem keeps_help : help.Keeps (fun a => R a.name) Q := by
  intro a a' _ hf
  cases hf

theorem keeps_storeName : (ArgParse.Action.store storeName).Keeps (fun a => R a.name) R := by
  intro t a a' ht _ hf
  obtain rfl := Option.some.inj hf
  exact ht

/-- Only `--name` sets the name. -/
theorem keeps_name : daemonOptions.Keeps (fun a => R a.name) R where
  short := by
    simp only [daemonOptions, List.forall_mem_cons]
    exact ⟨keeps_help, keeps_put fun _ _ => rfl, keeps_set fun _ => rfl, by simp⟩
  long := by
    simp only [daemonOptions, List.forall_mem_cons]
    exact ⟨keeps_help, keeps_put fun _ _ => rfl, keeps_storeName, keeps_put fun _ _ => rfl,
      keeps_put fun _ _ => rfl, keeps_map fun _ _ => rfl, keeps_map fun _ _ => rfl,
      keeps_map fun _ _ => rfl, keeps_set fun _ => rfl, keeps_put fun _ _ => rfl,
      keeps_set fun _ => rfl, keeps_set fun _ => rfl, by simp⟩

end Beachedmesh
