import Beachedmesh.Control
import Beachedmesh.Support.Machine
import Beachedmesh.Support.PyText
import Mathlib.Data.Char
import Mathlib.Data.List.Lex

/-!
# Names for the adapters

`beachedmesh-setup` gives each adapter a name of its own and keeps the names in a rules
file, which it writes whole and reads back on the next run. The file is the only memory
from run to run.
-/
namespace Beachedmesh
open PyText Machine

/-! ### The rules file -/

def ruleHeader : Text :=
  ("# beachedmesh: pin adapters to stable names by MAC.\n" ++
    "# Written by beachedmesh-setup. One line per adapter.\n").toList

/-- The line for one adapter, without its newline. -/
def rule (e : Text × Text) : Text :=
  "SUBSYSTEM==\"net\", ACTION==\"add\", ATTR{address}==\"".toList ++ e.1 ++
    "\", NAME=\"".toList ++ e.2 ++ "\"".toList

/-- `part.split('"')[1]`, with `none` for its `IndexError`. -/
def quoted (part : Text) : Option Text := (part.splitOn '"')[1]?

/-- One part of a line, into the MAC and the name found so far. -/
def readPart (lower : Text → Text) (found : Option Text × Option Text) (part : Text) :
    Option (Option Text × Option Text) :=
  let part := stripChars part
  if "ATTR{address}==".toList.isPrefixOf part then
    (quoted part).map fun mac => (some (lower mac), found.2)
  else if "NAME=".toList.isPrefixOf part then (quoted part).map fun name => (found.1, some name)
  else some found

/-- One line of the file, into the dictionary of what is claimed. -/
def readLine (lower : Text → Text) (claimed : OrderedDict Text Text) (line : Text) :
    Option (OrderedDict Text Text) :=
  if "#".toList.isPrefixOf (line.dropWhile isSpace) ∨ ¬ "NAME=".toList <:+: line then some claimed
  else
    ((line.splitOn ',').foldlM (readPart lower) (none, none)).map fun
      | (some mac, some name) => if mac ≠ [] ∧ name ≠ [] then claimed.insert mac name else claimed
      | _ => claimed

/-- `read_rules`, of the file if it exists; `none` when it raises. -/
def readRules (lower : Text → Text) (file : Option Text) : Option (OrderedDict Text Text) :=
  match file with
  | none => some OrderedDict.empty
  | some text => (lines (universal text)).foldlM (readLine lower) OrderedDict.empty

/-! ### Allocation -/

def ifacePrefix : Text := "BCHD".toList

def adapterName (n : ℕ) : Text := ifacePrefix ++ str n

/-- `while f"{IFACE_PREFIX}{n}" in taken: n += 1`, for at most so many turns. -/
def firstFree (taken : Finset Text) : ℕ → ℕ → Option ℕ
  | 0, _ => none
  | fuel + 1, n => if adapterName n ∈ taken then firstFree taken fuel (n + 1) else some n

/-- The names in use: claimed by a rule, or held by an interface. -/
def takenNames (claimed : OrderedDict Text Text) (present : Finset Text) : Finset Text :=
  (claimed.entries.map Prod.snd).toFinset ∪ present

def allocateName (mac : Text) (claimed : OrderedDict Text Text) (present : Finset Text) :
    Option Text :=
  match claimed.get? mac with
  | some name => some name
  | none =>
    let taken := takenNames claimed present
    (firstFree taken (taken.card + 1) 0).map adapterName

def ruleFile (es : List (Text × Text)) : Text := ruleHeader ++ es.flatMap fun e => rule e ++ ['\n']

/-- What `write_rule` writes: the header, and the claims by name. -/
def writeRule (lower : Text → Text) (mac name : Text) (file : Option Text) : Option Text :=
  (readRules lower file).map fun claimed =>
    ruleFile ((claimed.insert mac name).entries.mergeSort fun a b => decide (a.2 ≤ b.2))

/-! ### Runs -/

/-- One run for an adapter: its MAC, the interfaces present, and whether the kernel did
rename it. -/
structure SetupRun where
  mac : Text
  present : Finset Text
  renamed : Bool

/-- A run of `rename_iface` from the allocation on: the file it leaves, and the name. -/
def setup (lower : Text → Text) (file : Option Text) (r : SetupRun) :
    Option (Option Text × Text) :=
  (readRules lower file).bind fun claimed =>
    (allocateName r.mac claimed r.present).bind fun name =>
      if r.renamed then (writeRule lower r.mac name file).map fun text => (some text, name)
      else some (file, name)

/-- A lower-case MAC, with nothing in it that ends a quotation, a part or a line. -/
structure IsMac (lower : Text → Text) (mac : Text) : Prop where
  lower_eq : lower mac = mac
  quote : '"' ∉ mac
  comma : ',' ∉ mac
  newline : '\n' ∉ mac
  cr : '\r' ∉ mac

/-! ### The search -/

variable {lower : Text → Text} {mac name m n : Text} {claimed : OrderedDict Text Text}

theorem adapterName_injective : Function.Injective adapterName := fun _ _ h =>
  str_injective (List.append_cancel_left h)

theorem firstFree_eq_some {taken : Finset Text} {fuel i k : ℕ}
    (h : firstFree taken fuel i = some k) :
    adapterName k ∉ taken ∧ ∀ j, i ≤ j → j < k → adapterName j ∈ taken := by
  induction fuel generalizing i with
  | zero => cases h
  | succ fuel ih =>
    rw [firstFree] at h
    split_ifs at h with hi
    · obtain ⟨hfree, hleast⟩ := ih h
      refine ⟨hfree, fun j hij hjk => ?_⟩
      rcases hij.eq_or_lt with rfl | hlt
      · exact hi
      · exact hleast j hlt hjk
    · obtain rfl := Option.some.inj h
      exact ⟨hi, fun j hij hjk => absurd hij (not_le.mpr hjk)⟩

theorem firstFree_eq_none {taken : Finset Text} {fuel i : ℕ} (h : firstFree taken fuel i = none) :
    ∀ j, i ≤ j → j < i + fuel → adapterName j ∈ taken := by
  induction fuel generalizing i with
  | zero =>
    intro j hij hj
    omega
  | succ fuel ih =>
    rw [firstFree] at h
    split_ifs at h with hi
    intro j hij hj
    rcases hij.eq_or_lt with rfl | hlt
    · exact hi
    · exact ih h j hlt (by omega)

/-- The loop ends: among more numbers than there are names taken, one is free. -/
theorem firstFree_isSome {taken : Finset Text} {fuel : ℕ} (hfuel : taken.card < fuel) :
    (firstFree taken fuel 0).isSome := by
  rw [Option.isSome_iff_ne_none]
  intro hnone
  have hsub : (Finset.range fuel).image adapterName ⊆ taken := by
    intro s hs
    obtain ⟨j, hj, rfl⟩ := Finset.mem_image.mp hs
    exact firstFree_eq_none hnone j (Nat.zero_le j) (by simpa using hj)
  have hcard := Finset.card_le_card hsub
  rw [Finset.card_image_of_injective _ adapterName_injective, Finset.card_range] at hcard
  omega

/-- Neither recorded nor present. -/
def Free (claimed : OrderedDict Text Text) (present : Finset Text) (n : ℕ) : Prop :=
  (∀ m, claimed.get? m ≠ some (adapterName n)) ∧ adapterName n ∉ present

theorem free_iff {present : Finset Text} {n : ℕ} :
    Free claimed present n ↔ adapterName n ∉ takenNames claimed present := by
  rw [Free, takenNames, Finset.mem_union, not_or, List.mem_toFinset]
  refine and_congr_left fun _ => ?_
  simp only [ne_eq, OrderedDict.get?_eq_some_iff, List.mem_map, Prod.exists, not_exists, not_and]
  exact ⟨fun h m n hm heq => h m (heq ▸ hm), fun h m hm => h m _ hm rfl⟩

/-- The allocated name: the recorded one, or the lowest that is free. -/
def Allocates (mac : Text) (claimed : OrderedDict Text Text) (present : Finset Text)
    (name : Text) : Prop :=
  claimed.get? mac = some name ∨
    (claimed.get? mac = none ∧ ∃ n, name = adapterName n ∧ Free claimed present n ∧
      ∀ k < n, ¬ Free claimed present k)

theorem allocateName_spec (mac : Text) (claimed : OrderedDict Text Text) (present : Finset Text) :
    ∃ name, allocateName mac claimed present = some name ∧
      Allocates mac claimed present name := by
  rw [allocateName]
  cases hrec : claimed.get? mac with
  | some name => exact ⟨name, rfl, Or.inl hrec⟩
  | none =>
    obtain ⟨k, hk⟩ := Option.isSome_iff_exists.mp
      (firstFree_isSome (Nat.lt_succ_self (takenNames claimed present).card))
    obtain ⟨hfree, hleast⟩ := firstFree_eq_some hk
    refine ⟨adapterName k, by simp only [hk, Option.map_some], Or.inr ⟨hrec, k, rfl, ?_, ?_⟩⟩
    · exact free_iff.mpr hfree
    · intro j hj hfreej
      exact free_iff.mp hfreej (hleast j (Nat.zero_le j) hj)

/-! ### Reading back -/

/-- Surrounding white space is stripped from what begins and ends with something else. -/
theorem stripChars_core {pre core post : Text} {f l : Char}
    (hpre : ∀ c ∈ pre, isSpace c = true) (hpost : ∀ c ∈ post, isSpace c = true)
    (hfirst : core.head? = some f) (hf : isSpace f = false)
    (hlast : core.getLast? = some l) (hl : isSpace l = false) :
    stripChars (pre ++ core ++ post) = core := by
  obtain ⟨r, hr⟩ := List.head?_eq_some_iff.mp hfirst
  obtain ⟨t, ht⟩ := List.getLast?_eq_some_iff.mp hlast
  have hdrop : (pre ++ core ++ post).dropWhile isSpace = core ++ post := by
    rw [List.append_assoc, List.dropWhile_append_of_pos hpre, hr, List.cons_append,
      List.dropWhile_cons_of_neg (by simp [hf])]
  have hpost' : ∀ c ∈ post.reverse, isSpace c = true := fun c hc =>
    hpost c (List.mem_reverse.mp hc)
  rw [stripChars, hdrop, List.reverse_append, List.dropWhile_append_of_pos hpost', ht,
    List.reverse_append, List.reverse_singleton, List.singleton_append,
    List.dropWhile_cons_of_neg (by simp [hl]), List.reverse_cons, List.reverse_reverse]

/-- The part with the MAC, as the split leaves it. -/
def macPart (mac : Text) : Text := " ATTR{address}==\"".toList ++ mac ++ "\"".toList

/-- The part with the name, which ends the line. -/
def namePart (name : Text) : Text := " NAME=\"".toList ++ name ++ "\"\n".toList

theorem splitOn_rule (hmac : ',' ∉ mac) (hname : ',' ∉ name) :
    (rule (mac, name) ++ ['\n']).splitOn ',' =
      ["SUBSYSTEM==\"net\"".toList, " ACTION==\"add\"".toList, macPart mac, namePart name] := by
  have hrule : rule (mac, name) ++ ['\n'] = "SUBSYSTEM==\"net\"".toList ++
      ',' :: (" ACTION==\"add\"".toList ++ ',' :: (macPart mac ++ ',' :: namePart name)) := by
    unfold rule macPart namePart
    simp only [String.reduceToList]
    simp
  have hmacPart : ',' ∉ macPart mac := by
    unfold macPart
    simp only [String.reduceToList]
    simp [hmac]
  have hnamePart : ',' ∉ namePart name := by
    unfold namePart
    simp only [String.reduceToList]
    simp [hname]
  rw [hrule, List.splitOn_append_cons_self_of_not_mem (by simp),
    List.splitOn_append_cons_self_of_not_mem (by simp),
    List.splitOn_append_cons_self_of_not_mem hmacPart, List.splitOn_eq_singleton hnamePart]

/-- What stands in quotes between a key and the end of a part. -/
theorem quoted_eq {key value : Text} (hkey : '"' ∉ key) (hvalue : '"' ∉ value) :
    quoted (key ++ '"' :: (value ++ ['"'])) = some value :=
  splitOn_quoted hkey hvalue []

theorem getLast?_quoted (key value : Text) :
    (key ++ '"' :: (value ++ ['"'])).getLast? = some '"' :=
  List.getLast?_eq_some_iff.mpr ⟨key ++ '"' :: value, by simp⟩

theorem readPart_macPart (h : IsMac lower mac) (found : Option Text × Option Text) :
    readPart lower found (macPart mac) = some (some mac, found.2) := by
  have hpart : macPart mac =
      [' '] ++ ("ATTR{address}==".toList ++ '"' :: (mac ++ ['"'])) ++ [] := by
    unfold macPart
    simp only [String.reduceToList]
    simp
  have hstrip : stripChars (macPart mac) = "ATTR{address}==".toList ++ '"' :: (mac ++ ['"']) := by
    rw [hpart]
    exact stripChars_core (f := 'A') (l := '"') (by simp [isSpace]) (by simp) (by simp) (by decide)
      (getLast?_quoted _ _) (by decide)
  rw [readPart, hstrip, if_pos (by simp), quoted_eq (by simp) h.quote, Option.map_some,
    h.lower_eq]

theorem readPart_namePart (h : '"' ∉ name) (found : Option Text × Option Text) :
    readPart lower found (namePart name) = some (found.1, some name) := by
  have hpart : namePart name =
      [' '] ++ ("NAME=".toList ++ '"' :: (name ++ ['"'])) ++ ['\n'] := by
    unfold namePart
    simp only [String.reduceToList]
    simp
  have hstrip : stripChars (namePart name) = "NAME=".toList ++ '"' :: (name ++ ['"']) := by
    rw [hpart]
    exact stripChars_core (f := 'N') (l := '"') (by simp [isSpace]) (by simp [isSpace]) (by simp)
      (by decide)
      (getLast?_quoted _ _) (by decide)
  rw [readPart, hstrip, if_neg (by simp [List.isPrefixOf]), if_pos (by simp),
    quoted_eq (by simp) h, Option.map_some]

/-- The parts that say what a rule is for are passed over. -/
theorem readPart_condition (found : Option Text × Option Text) {part : Text}
    (h : part = "SUBSYSTEM==\"net\"".toList ∨ part = " ACTION==\"add\"".toList) :
    readPart lower found part = some found := by
  have hstrip : ¬ "ATTR{address}==".toList.isPrefixOf (stripChars part) ∧
      ¬ "NAME=".toList.isPrefixOf (stripChars part) := by
    simp only [String.reduceToList] at h ⊢
    rcases h with rfl | rfl <;> decide
  rw [readPart, if_neg hstrip.1, if_neg hstrip.2]

/-- A name that a rule can carry. -/
structure IsName (name : Text) : Prop where
  quote : '"' ∉ name
  comma : ',' ∉ name
  newline : '\n' ∉ name
  cr : '\r' ∉ name
  ne_nil : name ≠ []

theorem isName_adapterName (n : ℕ) : IsName (adapterName n) := by
  have hmem {c : Char} (hc : c ∈ adapterName n) : c ∈ ['B', 'C', 'H', 'D'] ∨ c.isDigit = true := by
    rw [adapterName, ifacePrefix, List.mem_append] at hc
    exact hc.imp (by simp) isDigit_of_mem_str
  refine ⟨fun h => ?_, fun h => ?_, fun h => ?_, fun h => ?_, ?_⟩
  · exact absurd (hmem h) (by decide)
  · exact absurd (hmem h) (by decide)
  · exact absurd (hmem h) (by decide)
  · exact absurd (hmem h) (by decide)
  · simp [adapterName, ifacePrefix]

/-- Enter a claim, unless its MAC is empty. -/
def enter (claimed : OrderedDict Text Text) (e : Text × Text) : OrderedDict Text Text :=
  if e.1 = [] then claimed else claimed.insert e.1 e.2

theorem readLine_rule (hmac : IsMac lower mac) (hname : IsName name)
    (claimed : OrderedDict Text Text) :
    readLine lower claimed (rule (mac, name) ++ ['\n']) = some (enter claimed (mac, name)) := by
  have hnot : ¬ "#".toList.isPrefixOf ((rule (mac, name) ++ ['\n']).dropWhile isSpace) := by
    unfold rule
    simp only [String.reduceToList]
    simp [List.isPrefixOf, isSpace]
  have hin : "NAME=".toList <:+: rule (mac, name) ++ ['\n'] := by
    refine ⟨"SUBSYSTEM==\"net\", ACTION==\"add\", ATTR{address}==\"".toList ++ mac ++
      "\", ".toList, "\"".toList ++ name ++ "\"\n".toList, ?_⟩
    unfold rule
    simp only [String.reduceToList]
    simp
  rw [readLine, if_neg (not_or.mpr ⟨hnot, not_not.mpr hin⟩), splitOn_rule hmac.comma hname.comma]
  simp only [List.foldlM_cons, List.foldlM_nil, Option.bind_eq_bind,
    readPart_condition _ (Or.inl rfl), readPart_condition _ (Or.inr rfl), readPart_macPart hmac,
    readPart_namePart hname.quote, Option.bind_some, Option.pure_def, Option.map_some, enter]
  by_cases hempty : mac = []
  · rw [if_pos hempty, if_neg (by simp [hempty])]
  · rw [if_neg hempty, if_pos ⟨hempty, hname.ne_nil⟩]

theorem not_mem_rule {c : Char} (hmac : c ∉ mac) (hname : c ∉ name)
    (hc : c = '\n' ∨ c = '\r') : c ∉ rule (mac, name) := by
  unfold rule
  simp only [String.reduceToList]
  rcases hc with rfl | rfl <;> simp [hmac, hname]

theorem cr_not_mem_ruleHeader : '\r' ∉ ruleHeader := by
  unfold ruleHeader
  simp only [String.toList_append, String.reduceToList]
  simp

/-- The header is two comments. -/
theorem lines_ruleHeader (rest : Text) : ∃ a b : Text, lines (ruleHeader ++ rest) =
    ('#' :: a) :: ('#' :: b) :: lines rest := by
  have hheader : ruleHeader ++ rest =
      "# beachedmesh: pin adapters to stable names by MAC.".toList ++ '\n' ::
        ("# Written by beachedmesh-setup. One line per adapter.".toList ++ '\n' :: rest) := by
    unfold ruleHeader
    simp only [String.toList_append, String.reduceToList]
    simp
  rw [hheader, lines_append (by simp), lines_append (by simp)]
  simp only [String.reduceToList]
  exact ⟨_, _, rfl⟩

theorem readLine_comment (claimed : OrderedDict Text Text) (cs : Text) :
    readLine lower claimed ('#' :: cs) = some claimed := by
  rw [readLine, if_pos (Or.inl ?_)]
  rw [List.dropWhile_cons_of_neg (by decide)]
  simp

theorem foldlM_readLine {es : List (Text × Text)} (h : ∀ e ∈ es, IsMac lower e.1 ∧ IsName e.2)
    (claimed : OrderedDict Text Text) :
    (es.map fun e => rule e ++ ['\n']).foldlM (readLine lower) claimed =
      some (es.foldl enter claimed) := by
  induction es generalizing claimed with
  | nil => rfl
  | cons e es ih =>
    obtain ⟨hmac, hname⟩ := h e (by simp)
    rw [List.map_cons, List.foldlM_cons, readLine_rule hmac hname, Option.bind_eq_bind,
      Option.bind_some, ih fun e' he' => h e' (List.mem_cons_of_mem e he')]
    rfl

/-- What is written is read back. -/
theorem readRules_ruleFile {es : List (Text × Text)}
    (h : ∀ e ∈ es, IsMac lower e.1 ∧ IsName e.2) :
    readRules lower (some (ruleFile es)) = some (es.foldl enter OrderedDict.empty) := by
  have hcr : '\r' ∉ ruleFile es := by
    rw [ruleFile, List.mem_append, List.mem_flatMap, not_or]
    refine ⟨cr_not_mem_ruleHeader, ?_⟩
    rintro ⟨e, he, hc⟩
    rw [List.mem_append] at hc
    exact hc.elim (not_mem_rule (h e he).1.cr (h e he).2.cr (Or.inr rfl)) (by simp)
  obtain ⟨a, b, hlines⟩ := lines_ruleHeader (es.flatMap fun e => rule e ++ ['\n'])
  have hrules : lines (es.flatMap fun e => rule e ++ ['\n']) = es.map fun e => rule e ++ ['\n'] :=
    lines_flatMap fun e he =>
      not_mem_rule (h e he).1.newline (h e he).2.newline (Or.inl rfl)
  rw [hrules] at hlines
  simp only [readRules]
  rw [universal_of_not_mem hcr, ruleFile, hlines, List.foldlM_cons, readLine_comment,
    Option.bind_eq_bind, Option.bind_some, List.foldlM_cons, readLine_comment,
    Option.bind_eq_bind, Option.bind_some, foldlM_readLine h]

theorem get?_enter {e : Text × Text} (hnew : claimed.get? e.1 = none) :
    (enter claimed e).get? m = some n ↔
      claimed.get? m = some n ∨ (m ≠ [] ∧ (m, n) = e) := by
  obtain ⟨mac, name⟩ := e
  rw [enter, Prod.mk.injEq]
  by_cases hempty : mac = []
  · rw [if_pos hempty]
    refine (or_iff_left ?_).symm
    rintro ⟨hm, rfl, -⟩
    exact hm hempty
  · rw [if_neg hempty, OrderedDict.get?_insert]
    by_cases hm : m = mac
    · subst hm
      rw [if_pos rfl, hnew]
      simp [hempty, eq_comm]
    · simp [hm]

/-- The claims entered from a list of distinct MACs are those of the list, the empty one apart. -/
theorem get?_foldl_enter {es : List (Text × Text)} (hnd : (es.map Prod.fst).Nodup)
    {claimed : OrderedDict Text Text} (hnew : ∀ e ∈ es, claimed.get? e.1 = none) :
    (es.foldl enter claimed).get? m = some n ↔
      claimed.get? m = some n ∨ (m ≠ [] ∧ (m, n) ∈ es) := by
  induction es generalizing claimed with
  | nil => simp
  | cons e es ih =>
    obtain ⟨hout, hnd⟩ := List.nodup_cons.mp hnd
    have hne : ∀ e' ∈ es, e'.1 ≠ e.1 := fun e' he' heq =>
      hout (heq ▸ List.mem_map_of_mem he')
    rw [List.foldl_cons, ih hnd ?_, get?_enter (hnew e (by simp)), List.mem_cons]
    · tauto
    · intro e' he'
      have hold := hnew e' (List.mem_cons_of_mem e he')
      unfold enter
      split_ifs
      · exact hold
      · rw [OrderedDict.get?_insert, if_neg (hne e' he'), hold]

/-! ### One run -/

/-- What the rules file may hold: names of ours for MACs, each for one. -/
structure Sound (lower : Text → Text) (claimed : OrderedDict Text Text) : Prop where
  isMac : ∀ m n, claimed.get? m = some n → IsMac lower m ∧ m ≠ []
  ours : ∀ m n, claimed.get? m = some n → ∃ k, n = adapterName k
  injective : ∀ m m' n, claimed.get? m = some n → claimed.get? m' = some n → m = m'

theorem sound_empty : Sound lower OrderedDict.empty where
  isMac := by simp
  ours := by simp
  injective := by simp

/-- The claims after a run, against those before and the name it gave. -/
structure Extends (before after : OrderedDict Text Text) (mac name : Text) (recorded : Prop) :
    Prop where
  kept : ∀ m n, before.get? m = some n → after.get? m = some n
  added : ∀ m n, after.get? m = some n → before.get? m = some n ∨ (m = mac ∧ n = name)
  recorded : recorded → mac ≠ [] → after.get? mac = some name

theorem extends_self (mac name : Text) : Extends claimed claimed mac name False where
  kept := fun _ _ h => h
  added := fun _ _ h => Or.inl h
  recorded := False.elim

theorem Sound.extends {after : OrderedDict Text Text} {recorded : Prop} {present : Finset Text}
    (h : Sound lower claimed) (hmac : IsMac lower mac)
    (halloc : Allocates mac claimed present name)
    (hext : Extends claimed after mac name recorded)
    (hempty : ∀ n, after.get? [] ≠ some n) : Sound lower after where
  isMac := by
    intro m n hm
    refine ⟨?_, fun hnil => hempty n (hnil ▸ hm)⟩
    rcases hext.added m n hm with hold | ⟨rfl, -⟩
    · exact (h.isMac m n hold).1
    · exact hmac
  ours := by
    intro m n hm
    rcases hext.added m n hm with hold | ⟨-, rfl⟩
    · exact h.ours m n hold
    · rcases halloc with hrec | ⟨-, k, rfl, -⟩
      · exact h.ours mac n hrec
      · exact ⟨k, rfl⟩
  injective := by
    -- a name that another MAC has is not the one allocated
    have hother : ∀ m, claimed.get? m = some name → m = mac := by
      intro m hm
      rcases halloc with hrec | ⟨-, k, rfl, hfree, -⟩
      · exact h.injective m mac name hm hrec
      · exact absurd hm (hfree.1 m)
    intro m m' n hm hm'
    rcases hext.added m n hm with hold | ⟨rfl, rfl⟩
    · rcases hext.added m' n hm' with hold' | ⟨rfl, rfl⟩
      · exact h.injective m m' n hold hold'
      · exact hother m hold
    · rcases hext.added m' n hm' with hold' | ⟨rfl, -⟩
      · exact (hother m' hold').symm
      · rfl

/-- Writing a rule and reading the file back. -/
theorem readRules_writeRule {file : Option Text} (hread : readRules lower file = some claimed)
    (h : Sound lower claimed) (hmac : IsMac lower mac) (hname : IsName name) :
    ∃ text after, writeRule lower mac name file = some text ∧
      readRules lower (some text) = some after ∧
      ∀ m n, after.get? m = some n ↔ m ≠ [] ∧ (claimed.insert mac name).get? m = some n := by
  set es := (claimed.insert mac name).entries.mergeSort fun a b => decide (a.2 ≤ b.2)
  have hperm : es.Perm (claimed.insert mac name).entries := List.mergeSort_perm _ _
  have hes : ∀ e ∈ es, IsMac lower e.1 ∧ IsName e.2 := by
    rintro ⟨m, n⟩ he
    have hget := OrderedDict.get?_eq_some_iff.mpr (hperm.mem_iff.mp he)
    rw [OrderedDict.get?_insert] at hget
    split_ifs at hget with hm
    · obtain rfl := Option.some.inj hget
      exact ⟨hm ▸ hmac, hname⟩
    · obtain ⟨k, rfl⟩ := h.ours m n hget
      exact ⟨(h.isMac m _ hget).1, isName_adapterName k⟩
  have hnd : (es.map Prod.fst).Nodup :=
    (hperm.map Prod.fst).nodup_iff.mpr (claimed.insert mac name).nodup
  refine ⟨ruleFile es, _, by rw [writeRule, hread]; rfl, readRules_ruleFile hes, fun m n => ?_⟩
  rw [get?_foldl_enter hnd (by simp), hperm.mem_iff, ← OrderedDict.get?_eq_some_iff,
    OrderedDict.get?_empty]
  simp only [reduceCtorEq, false_or]

/-- What one run does, from a file that holds `claimed`. -/
theorem setup_spec {file : Option Text} {r : SetupRun}
    (hread : readRules lower file = some claimed) (h : Sound lower claimed)
    (hmac : IsMac lower r.mac) :
    ∃ file' name after, setup lower file r = some (file', name) ∧
      readRules lower file' = some after ∧ Sound lower after ∧
      Extends claimed after r.mac name (r.renamed = true) ∧
      Allocates r.mac claimed r.present name := by
  obtain ⟨name, hname, halloc⟩ := allocateName_spec r.mac claimed r.present
  cases hr : r.renamed with
  | false =>
    refine ⟨file, name, claimed, ?_, hread, h, ?_, halloc⟩
    · rw [setup, hread, Option.bind_some, hname, Option.bind_some, hr]
      rfl
    · simpa using extends_self r.mac name
  | true =>
    have hours : IsName name := by
      rcases halloc with hrec | ⟨-, k, rfl, -⟩
      · obtain ⟨k, rfl⟩ := h.ours r.mac name hrec
        exact isName_adapterName k
      · exact isName_adapterName k
    obtain ⟨text, after, hwrite, hback, hget⟩ := readRules_writeRule hread h hmac hours
    have hext : Extends claimed after r.mac name (true = true) := by
      refine ⟨fun m n hm => ?_, fun m n hm => ?_, fun _ hne => ?_⟩
      · refine (hget m n).mpr ⟨(h.isMac m n hm).2, ?_⟩
        rw [OrderedDict.get?_insert]
        split_ifs with heq
        · subst heq
          rcases halloc with hrec | ⟨hnone, -⟩
          · exact hrec.symm.trans hm
          · exact absurd (hnone.symm.trans hm) (by simp)
        · exact hm
      · obtain ⟨-, hm⟩ := (hget m n).mp hm
        rw [OrderedDict.get?_insert] at hm
        split_ifs at hm with heq
        · exact Or.inr ⟨heq, (Option.some.inj hm).symm⟩
        · exact Or.inl hm
      · exact (hget r.mac name).mpr ⟨hne, by rw [OrderedDict.get?_insert, if_pos rfl]⟩
    refine ⟨some text, name, after, ?_, hback, ?_, hext, halloc⟩
    · rw [setup, hread, Option.bind_some, hname, Option.bind_some, hr, if_pos rfl, hwrite]
      rfl
    · exact h.extends hmac halloc hext fun n hn => ((hget [] n).mp hn).1 rfl

/-! ### All runs -/

/-- After every run the file is read back, and holds what it may hold. -/
theorem setup_runs (runs : List SetupRun) (hmac : ∀ r ∈ runs, IsMac lower r.mac)
    {file : Option Text} (hread : readRules lower file = some claimed) (h : Sound lower claimed) :
    ∃ file' names after, exec (setup lower) file runs = some (file', names) ∧
      readRules lower file' = some after ∧ Sound lower after ∧
      ∀ m n, claimed.get? m = some n → after.get? m = some n := by
  induction runs generalizing file claimed with
  | nil => exact ⟨file, [], claimed, rfl, hread, h, fun _ _ hm => hm⟩
  | cons r runs ih =>
    obtain ⟨mid, name, d, hone, hmid, hsound, hext, -⟩ :=
      setup_spec hread h (hmac r (by simp))
    obtain ⟨last, names, after, hrest, hlast, hafter, hkept⟩ :=
      ih (fun r' hr' => hmac r' (List.mem_cons_of_mem r hr')) hmid hsound
    exact ⟨last, name :: names, after,
      exec_cons_iff.mpr ⟨mid, name, names, hone, hrest, rfl⟩, hlast, hafter,
      fun m n hm => hkept m n (hext.kept m n hm)⟩

/-- From no file: every sequence of runs goes through, each run adds at most the pair it
allocated, the lowest free name, and no name recorded after one part of the runs is lost
or given to another MAC in what follows. -/
theorem adapter_names_permanent (lower : Text → Text) (runs : List SetupRun)
    (hmac : ∀ r ∈ runs, IsMac lower r.mac) :
    (∃ file names, exec (setup lower) none runs = some (file, names)) ∧
    (∀ pre r post file names, runs = pre ++ r :: post →
      exec (setup lower) none pre = some (file, names) →
      ∃ before file' name after, readRules lower file = some before ∧
        setup lower file r = some (file', name) ∧ readRules lower file' = some after ∧
        Extends before after r.mac name (r.renamed = true) ∧
        Allocates r.mac before r.present name) ∧
    ∀ pre mid post file names file' names', runs = pre ++ (mid ++ post) →
      exec (setup lower) none pre = some (file, names) →
      exec (setup lower) none (pre ++ mid) = some (file', names') →
      ∃ before after, readRules lower file = some before ∧ readRules lower file' = some after ∧
        (∀ m n, before.get? m = some n → after.get? m = some n) ∧
        ∀ m m' n, before.get? m = some n → after.get? m' = some n → m = m' := by
  have hstart : readRules lower none = some OrderedDict.empty := rfl
  refine ⟨?_, ?_, ?_⟩
  · obtain ⟨file, names, -, hx, -⟩ := setup_runs runs hmac hstart sound_empty
    exact ⟨file, names, hx⟩
  · rintro pre r post file names rfl hpre
    obtain ⟨file', names', before, hx, hread, hsound, -⟩ :=
      setup_runs pre (fun r' hr' => hmac r' (by simp [hr'])) hstart sound_empty
    obtain ⟨rfl, rfl⟩ := Prod.mk.inj (Option.some.inj (hpre.symm.trans hx))
    obtain ⟨next, name, after, hone, hafter, -, hext, halloc⟩ :=
      setup_spec hread hsound (hmac r (by simp))
    exact ⟨before, next, name, after, hread, hone, hafter, hext, halloc⟩
  · rintro pre mid post file names file' names' rfl hpre hmid
    obtain ⟨f, ns, before, hx, hread, hsound, -⟩ :=
      setup_runs pre (fun r' hr' => hmac r' (by simp [hr'])) hstart sound_empty
    obtain ⟨rfl, rfl⟩ := Prod.mk.inj (Option.some.inj (hpre.symm.trans hx))
    obtain ⟨g, ms, after, hy, hafter, hlast, hkept⟩ :=
      setup_runs mid (fun r' hr' => hmac r' (by simp [hr'])) hread hsound
    obtain ⟨u, os₁, os₂, hu, hv, -⟩ := exec_append_iff.mp hmid
    obtain ⟨rfl, rfl⟩ := Prod.mk.inj (Option.some.inj (hpre.symm.trans hu))
    obtain ⟨rfl, rfl⟩ := Prod.mk.inj (Option.some.inj (hv.symm.trans hy))
    exact ⟨before, after, hread, hafter, hkept,
      fun m m' n hm hm' => hlast.injective m m' n (hkept m n hm) hm'⟩

/-- Two adapters, and the first once more. -/
def threeSetups : List SetupRun :=
  [⟨"aa:01".toList, {"wlan0".toList}, true⟩, ⟨"aa:02".toList, {"BCHD0".toList}, true⟩,
    ⟨"aa:01".toList, ∅, true⟩]

/-- The name given to a new MAC is the one that is free while no lower one is. -/
theorem Allocates.eq_adapterName {mac name : Text} {claimed : OrderedDict Text Text}
    {present : Finset Text} {n : ℕ} (h : Allocates mac claimed present name)
    (hnew : claimed.get? mac = none) (hfree : Free claimed present n)
    (hmin : ∀ k < n, ¬ Free claimed present k) : name = adapterName n := by
  rcases h with hold | ⟨-, m, rfl, hfree', hmin'⟩
  · cases hnew.symm.trans hold
  · rcases lt_trichotomy m n with hlt | rfl | hgt
    · exact absurd hfree' (hmin m hlt)
    · rfl
    · exact absurd hfree (hmin' n hgt)

/-- The two adapters are given the first two names, and the first one keeps its own. -/
theorem adapter_names_three : ∃ file after,
    exec (setup fun t => t.map Char.toLower) none threeSetups =
      some (file, [adapterName 0, adapterName 1, adapterName 0]) ∧
    readRules (fun t => t.map Char.toLower) file = some after ∧
    after.get? "aa:01".toList = some (adapterName 0) ∧
    after.get? "aa:02".toList = some (adapterName 1) := by
  set lower : Text → Text := fun t => t.map Char.toLower
  have hmac : ∀ r ∈ threeSetups, IsMac lower r.mac := by
    intro r hr
    simp only [threeSetups, List.mem_cons, List.not_mem_nil, or_false] at hr
    rcases hr with rfl | rfl | rfl <;>
    · simp only [String.reduceToList]
      exact ⟨by decide, by decide, by decide, by decide, by decide⟩
  obtain ⟨-, hstep, -⟩ := adapter_names_permanent lower threeSetups hmac
  -- the first adapter
  obtain ⟨before, file₁, name₁, after₁, hread, hone, hafter₁, hext₁, halloc₁⟩ :=
    hstep [] _ _ none [] rfl rfl
  obtain rfl : OrderedDict.empty = before := Option.some.inj hread
  obtain rfl : name₁ = adapterName 0 := halloc₁.eq_adapterName rfl
    ⟨fun m hm => by simp at hm, by decide +kernel⟩ fun k hk => absurd hk (Nat.not_lt_zero k)
  have hfirst₁ := hext₁.recorded rfl (by decide)
  have hall₁ (m n : Text) (hm : after₁.get? m = some n) :
      m = "aa:01".toList ∧ n = adapterName 0 :=
    (hext₁.added m n hm).resolve_left fun h => by simp at h
  have hpre₁ : exec (setup lower) none [⟨"aa:01".toList, {"wlan0".toList}, true⟩] =
      some (file₁, [adapterName 0]) := exec_cons_iff.mpr ⟨file₁, _, [], hone, rfl, rfl⟩
  -- the second one
  obtain ⟨before, file₂, name₂, after₂, hread, htwo, hafter₂, hext₂, halloc₂⟩ :=
    hstep [_] _ _ file₁ _ rfl hpre₁
  obtain rfl : after₁ = before := Option.some.inj (hafter₁.symm.trans hread)
  have hnew : after₁.get? "aa:02".toList = none := by
    refine Option.eq_none_iff_forall_ne_some.mpr fun n hn => ?_
    exact absurd (hall₁ _ n hn).1 (by decide)
  obtain rfl : name₂ = adapterName 1 := by
    refine halloc₂.eq_adapterName hnew ⟨fun m hm => ?_, by decide +kernel⟩ fun k hk hfree => ?_
    · exact absurd (adapterName_injective (hall₁ m _ hm).2) one_ne_zero
    · obtain rfl : k = 0 := by omega
      exact hfree.1 _ hfirst₁
  have hsecond₂ := hext₂.recorded rfl (by decide)
  have hfirst₂ := hext₂.kept _ _ hfirst₁
  have hpre₂ : exec (setup lower) none [⟨"aa:01".toList, {"wlan0".toList}, true⟩,
      ⟨"aa:02".toList, {"BCHD0".toList}, true⟩] = some (file₂, [adapterName 0, adapterName 1]) :=
    exec_cons_iff.mpr ⟨file₁, _, _, hone, exec_cons_iff.mpr ⟨file₂, _, [], htwo, rfl, rfl⟩, rfl⟩
  -- the first one again
  obtain ⟨before, file₃, name₃, after₃, hread, hthree, hafter₃, hext₃, halloc₃⟩ :=
    hstep [_, _] _ [] file₂ _ rfl hpre₂
  obtain rfl : after₂ = before := Option.some.inj (hafter₂.symm.trans hread)
  obtain rfl : name₃ = adapterName 0 := by
    rcases halloc₃ with hold | ⟨hnone, -⟩
    · exact Option.some.inj (hold.symm.trans hfirst₂)
    · cases hnone.symm.trans hfirst₂
  refine ⟨file₃, after₃, ?_, hafter₃, hext₃.kept _ _ hfirst₂, hext₃.kept _ _ hsecond₂⟩
  refine exec_cons_iff.mpr ⟨file₁, _, _, hone, exec_cons_iff.mpr ⟨file₂, _, _, htwo, ?_, rfl⟩, rfl⟩
  exact exec_cons_iff.mpr ⟨file₃, _, [], hthree, rfl, rfl⟩

end Beachedmesh
