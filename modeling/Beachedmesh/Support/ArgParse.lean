import Beachedmesh.Support.Machine
import Beachedmesh.Support.PyText
import Mathlib.Data.List.TakeWhile

/-!
# Options, as `argparse` reads them

A parser has options and no positional arguments. Every word is first classified on its
own; then the words are taken in order, and an option that takes an argument waits for
one. Words that no option takes end in an error, as do ambiguous abbreviations.
-/
namespace ArgParse
open PyText Machine

variable {σ : Type*}

/-- What an option does: it stores its argument, or it takes none. Either may exit. -/
inductive Action (σ : Type*) where
  | store (f : Text → σ → Option σ)
  | flag (f : σ → Option σ)

/-- The action keeps `P`, given an argument with `Q`. -/
def Action.Keeps (P : σ → Prop) (Q : Text → Prop) : Action σ → Prop
  | .store f => ∀ t s s', Q t → P s → f t s = some s' → P s'
  | .flag f => ∀ s s', P s → f s = some s' → P s'

/-- The options by their letter, and by their name with its two dashes; and what counts as
a digit. -/
structure Options (σ : Type*) where
  short : List (Char × Action σ)
  long : List (Text × Action σ)
  decimal : Char → Bool

/-- What a word is: an option with what follows the letter, or what follows the `=`. -/
inductive Word (σ : Type*) where
  | argument
  | refused
  | short (a : Action σ) (rest : Text)
  | long (a : Action σ) (given : Option Text)

namespace Options

variable (o : Options σ)

/-- `^-\d+$|^-\d*\.\d+$`, where `$` also matches before a last newline. -/
def isNegativeNumber : Text → Bool
  | '-' :: t =>
    let t := if t.getLast? = some '\n' then t.dropLast else t
    match t.dropWhile o.decimal with
    | [] => t ≠ []
    | '.' :: frac => frac ≠ [] && frac.all o.decimal
    | _ => false
  | _ => false

/-- A word with a dash that is no option. -/
def unmatched (w : Text) : Word σ :=
  if o.isNegativeNumber w ∨ ' ' ∈ w then .argument else .refused

/-- The text after the first `=`, if there is one. -/
def afterEq (w : Text) : Option Text :=
  if '=' ∈ w then some ((w.dropWhile (· ≠ '=')).drop 1) else none

/-- A word with two dashes: an option, or the only one that it abbreviates. -/
def classifyLong (w : Text) : Word σ :=
  match o.long.lookup w with
  | some a => .long a none
  | none =>
    let key := w.takeWhile (· ≠ '=')
    match o.long.lookup key with
    | some a => .long a (afterEq w)
    | none =>
      match o.long.filter fun p => key.isPrefixOf p.1 with
      | [] => o.unmatched w
      | [p] => .long p.2 (afterEq w)
      | _ => .refused

/-- `_parse_optional`. -/
def classify (w : Text) : Word σ :=
  match w with
  | '-' :: '-' :: [] => .refused
  | '-' :: '-' :: _ => o.classifyLong w
  | '-' :: c :: rest =>
    match o.short.lookup c with
    | some a => .short a rest
    | none => o.unmatched w
  | _ => .argument

def isArgument (w : Text) : Bool :=
  match o.classify w with
  | .argument => true
  | _ => false

/-- Where a parse stands: what is stored, and the option that waits for its argument. -/
abbrev State (σ : Type*) := σ × Option (Text → σ → Option σ)

/-- An option by its letter, with what follows it in the word: its argument, or more
letters. -/
def cluster : Action σ → Text → σ → Option (State σ)
  | .store f, [], s => some (s, some f)
  | .store f, c :: rest, s => (f (if c = '=' then rest else c :: rest) s).map (·, none)
  | .flag f, [], s => (f s).map (·, none)
  | .flag f, c :: rest, s =>
    if c = '=' ∨ c = '-' then none
    else (f s).bind fun s => (o.short.lookup c).bind fun a => cluster a rest s

/-- `consume_optional`, up to the words that follow. -/
def consume : Word σ → σ → Option (State σ)
  | .short a rest, s => o.cluster a rest s
  | .long (.store f) none, s => some (s, some f)
  | .long (.store f) (some t), s => (f t s).map (·, none)
  | .long (.flag f) none, s => (f s).map (·, none)
  | .long (.flag _) (some _), _ => none
  | .argument, _ => none
  | .refused, _ => none

def step : State σ → Text → Option (State σ)
  | (s, none), w => o.consume (o.classify w) s
  | (s, some f), w => if o.isArgument w then (f w s).map (·, none) else none

/-- `parse_args`, from the defaults, up to the check that what is required is there. -/
def parse (words : List Text) (s : σ) : Option σ :=
  (words.foldlM o.step (s, none)).bind fun
    | (s, none) => some s
    | (_, some _) => none

/-! ### Arguments -/

variable {o}

theorem isArgument_of_head {w : Text} (h : w.head? ≠ some '-') : o.isArgument w = true := by
  unfold isArgument classify
  split
  · next heq =>
    split at heq
    · exact absurd rfl h
    · exact absurd rfl h
    · exact absurd rfl h
    · rfl
  · next hne =>
    refine absurd ?_ hne
    split
    · exact absurd rfl h
    · exact absurd rfl h
    · exact absurd rfl h
    · rfl

/-- What a negative number has after its dash. -/
theorem head_of_isNegativeNumber {c : Char} {t : Text}
    (h : o.isNegativeNumber ('-' :: c :: t) = true) : c = '.' ∨ o.decimal c = true := by
  by_contra hnot
  obtain ⟨hdot, hdec⟩ := not_or.mp hnot
  have hdec' : o.decimal c = false := Bool.eq_false_of_not_eq_true hdec
  simp only [isNegativeNumber] at h
  cases t with
  | nil =>
    by_cases hn : c = '\n'
    · simp [hn] at h
    · simp [hn, hdec', hdot] at h
  | cons d t =>
    split_ifs at h with hlast
    · simp [List.dropLast, hdec', hdot] at h
    · simp [hdec', hdot] at h

theorem isArgument_of_unmatched {w : Text} (hclass : o.classify w = o.unmatched w)
    (hspace : ' ' ∉ w) : o.isArgument w = true ↔ o.isNegativeNumber w = true := by
  rw [isArgument, hclass]
  cases hneg : o.isNegativeNumber w with
  | false => simp [unmatched, hneg, hspace]
  | true => simp [unmatched, hneg]

/-- With a dash and more, only what fits no option is an argument. -/
theorem unmatched_of_isArgument {c : Char} {u : Text} (h : o.isArgument ('-' :: c :: u) = true) :
    o.classify ('-' :: c :: u) = o.unmatched ('-' :: c :: u) := by
  unfold isArgument at h
  split at h
  · next hclass =>
    rw [hclass]
    unfold classify at hclass
    split at hclass
    · cases hclass
    · unfold classifyLong at hclass
      split at hclass
      · cases hclass
      · dsimp only at hclass
        split at hclass
        · cases hclass
        · split at hclass
          · exact hclass.symm
          · cases hclass
          · cases hclass
    · split at hclass
      · cases hclass
      · exact hclass.symm
    · next hne => exact absurd rfl (hne c u)
  · cases h

/-- A word without a space is an argument unless it looks like an option: with a dash in
front, only the dash alone and negative numbers are arguments. -/
theorem isArgument_iff {t : Text} (ht : ' ' ∉ t) (hdash : o.decimal '-' = false)
    (hshort : ∀ c, c = '.' ∨ o.decimal c = true → o.short.lookup c = none) :
    o.isArgument t = true ↔
      t.head? ≠ some '-' ∨ t = ['-'] ∨ o.isNegativeNumber t = true := by
  by_cases hhead : t.head? = some '-'
  swap
  · simp [isArgument_of_head hhead, hhead]
  obtain ⟨u, rfl⟩ := List.head?_eq_some_iff.mp hhead
  cases u with
  | nil => simp [isArgument, classify]
  | cons c u =>
    by_cases hneg : o.isNegativeNumber ('-' :: c :: u) = true
    · have hc := head_of_isNegativeNumber hneg
      have hne : c ≠ '-' := by
        rintro rfl
        simp [hdash] at hc
      have hclass : o.classify ('-' :: c :: u) = o.unmatched ('-' :: c :: u) := by
        simp [classify, hne, hshort c hc]
      simp [isArgument_of_unmatched hclass ht]
    · have hnot : o.isArgument ('-' :: c :: u) ≠ true := fun h =>
        hneg ((isArgument_of_unmatched (unmatched_of_isArgument h) ht).mp h)
      simp [hnot, hneg]

/-! ### Options that wait -/

theorem not_isArgument_of_long {w t : Text} {c : Char} (hw : w = '-' :: '-' :: c :: t)
    {a : Action σ} (h : o.long.lookup w = some a) : o.isArgument w = false := by
  have hclass : o.classify w = .long a none := by
    subst hw
    simp only [classify, classifyLong, h]
  rw [isArgument, hclass]

/-- An option by its letter alone waits for its argument. -/
theorem step_short {c : Char} (hc : c ≠ '-') {f : Text → σ → Option σ}
    (h : o.short.lookup c = some (.store f)) (s : σ) :
    o.step (s, none) ['-', c] = some (s, some f) := by
  have hclass : o.classify ['-', c] = .short (.store f) [] := by
    unfold classify
    split
    · next heq => exact absurd (List.cons.inj (List.cons.inj heq).2).1 hc
    · next heq => exact absurd (List.cons.inj (List.cons.inj heq).2).1 hc
    · next heq =>
      obtain ⟨rfl, rfl⟩ := List.cons.inj (List.cons.inj heq).2
      rw [h]
    · next hne => exact absurd rfl (hne c [])
  rw [step, hclass, consume, cluster]

/-- So does an option by its name. -/
theorem step_long {w t : Text} {c : Char} (hw : w = '-' :: '-' :: c :: t)
    {f : Text → σ → Option σ} (h : o.long.lookup w = some (.store f)) (s : σ) :
    o.step (s, none) w = some (s, some f) := by
  have hclass : o.classify w = .long (.store f) none := by
    subst hw
    simp only [classify, classifyLong, h]
  rw [step, hclass, consume]

theorem step_waiting_iff {s : σ} {f : Text → σ → Option σ} {w : Text} {t : State σ} :
    o.step (s, some f) w = some t ↔
      o.isArgument w = true ∧ ∃ s', f w s = some s' ∧ t = (s', none) := by
  simp only [step]
  split_ifs with h
  · rw [Option.map_eq_some_iff]
    simp only [h, true_and, eq_comm]
  · simp [h]

theorem parse_eq_some_iff {words : List Text} {s t : σ} :
    o.parse words s = some t ↔ words.foldlM o.step (s, none) = some (t, none) := by
  rw [parse, Option.bind_eq_some_iff]
  constructor
  · rintro ⟨⟨s', pending⟩, hfold, h⟩
    cases pending with
    | none =>
      obtain rfl : s' = t := Option.some.inj h
      exact hfold
    | some f => cases h
  · exact fun hfold => ⟨(t, none), hfold, rfl⟩

/-! ### What is stored -/

/-- Every option keeps `P`, given an argument with `Q`. -/
structure Keeps (o : Options σ) (P : σ → Prop) (Q : Text → Prop) : Prop where
  short : ∀ p ∈ o.short, p.2.Keeps P Q
  long : ∀ p ∈ o.long, p.2.Keeps P Q

/-- What is stored so far has `P`, and will have it if the option that waits gets an
argument with `Q`. -/
def State.Sound (P : σ → Prop) (Q : Text → Prop) (t : State σ) : Prop :=
  P t.1 ∧ ∀ f ∈ t.2, (Action.store f).Keeps P Q

variable {P : σ → Prop} {Q : Text → Prop}

theorem mem_of_lookup {α β : Type*} [BEq α] [LawfulBEq α] {l : List (α × β)} {k : α} {b : β}
    (h : l.lookup k = some b) : (k, b) ∈ l := by
  obtain ⟨l₁, l₂, rfl, -⟩ := List.lookup_eq_some_iff.mp h
  simp

/-- The text ends the word, and is not all of it. -/
def Ends (t w : Text) : Prop := t <:+ w ∧ t.length < w.length

theorem ends_of_afterEq {w t : Text} (h : afterEq w = some t) : Ends t w := by
  unfold afterEq at h
  split_ifs at h with hmem
  obtain rfl := Option.some.inj h
  have hsuffix := List.dropWhile_suffix (l := w) (· ≠ '=')
  refine ⟨(List.drop_suffix 1 _).trans hsuffix, ?_⟩
  have hle := hsuffix.length_le
  have hpos : 0 < (w.dropWhile (· ≠ '=')).length := by
    rw [List.length_pos_iff, ne_eq, List.dropWhile_eq_nil_iff]
    intro hall
    simpa using hall '=' hmem
  rw [List.length_drop]
  omega

/-- What a word that is an option names, and the argument that comes with it. -/
def Names (o : Options σ) (w : Text) : Word σ → Prop
  | .short a rest => (∃ c, (c, a) ∈ o.short) ∧ Ends rest w
  | .long a given => (∃ key, (key, a) ∈ o.long) ∧ ∀ t ∈ given, Ends t w
  | _ => True

theorem names_unmatched (w v : Text) : o.Names w (o.unmatched v) := by
  unfold unmatched
  split_ifs
  · trivial
  · trivial

theorem names_classifyLong (w : Text) : o.Names w (o.classifyLong w) := by
  have hgiven : ∀ t ∈ afterEq w, Ends t w := fun t ht => ends_of_afterEq ht
  unfold classifyLong
  split
  · next a h => exact ⟨⟨w, mem_of_lookup h⟩, by simp⟩
  · dsimp only
    split
    · next a h => exact ⟨⟨_, mem_of_lookup h⟩, hgiven⟩
    · split
      · exact names_unmatched w w
      · next p h =>
        have hmem : p ∈ o.long := (List.mem_filter.mp (h ▸ List.mem_singleton_self p)).1
        exact ⟨⟨p.1, hmem⟩, hgiven⟩
      · trivial

theorem names_classify (w : Text) : o.Names w (o.classify w) := by
  unfold classify
  split
  · trivial
  · exact names_classifyLong _
  · next c rest _ _ =>
    split
    · next a h =>
      exact ⟨⟨c, mem_of_lookup h⟩, (List.suffix_cons c rest).trans (List.suffix_cons '-' _),
        by simp⟩
    · exact names_unmatched _ _
  · trivial

theorem State.sound_of_map {s' : Option σ} {t : State σ} (h : ∀ s ∈ s', P s)
    (ht : s'.map (·, none) = some t) : State.Sound P Q t := by
  obtain ⟨s, hs, rfl⟩ := Option.map_eq_some_iff.mp ht
  exact ⟨h s hs, by simp⟩

theorem Keeps.cluster (ho : o.Keeps P Q) {rest : Text} (hQ : ∀ u, u <:+ rest → Q u)
    {a : Action σ} (ha : a.Keeps P Q) {s : σ} (hs : P s) {t : State σ}
    (h : o.cluster a rest s = some t) : State.Sound P Q t := by
  induction rest generalizing a s with
  | nil =>
    cases a with
    | store f =>
      obtain rfl : (s, some f) = t := Option.some.inj h
      exact ⟨hs, by simpa using ha⟩
    | flag f => exact State.sound_of_map (fun s' hf => ha s s' hs hf) h
  | cons c rest ih =>
    have hrest : ∀ u, u <:+ rest → Q u := fun u hu => hQ u (hu.trans (List.suffix_cons c rest))
    cases a with
    | store f =>
      refine State.sound_of_map (fun s' hf => ha _ s s' ?_ hs hf) h
      split_ifs with hc
      · exact hrest rest List.suffix_rfl
      · exact hQ _ List.suffix_rfl
    | flag f =>
      rw [Options.cluster] at h
      split_ifs at h with hc
      obtain ⟨s', hf, h'⟩ := Option.bind_eq_some_iff.mp h
      obtain ⟨a', hlook, h''⟩ := Option.bind_eq_some_iff.mp h'
      exact ih hrest (ho.short _ (mem_of_lookup hlook)) (ha s s' hs hf) h''

/-- An option is given at most the end of its own word. -/
theorem Keeps.step_idle (ho : o.Keeps P Q) {w : Text} (hQ : ∀ u, Ends u w → Q u) {s : σ}
    {t : State σ} (hP : P s) (h : o.step (s, none) w = some t) : t.Sound P Q := by
  have hnames := names_classify (o := o) w
  rw [Options.step] at h
  cases hword : o.classify w with
  | argument => rw [hword, consume] at h; cases h
  | refused => rw [hword, consume] at h; cases h
  | short a rest =>
    rw [hword] at h hnames
    obtain ⟨⟨c, hc⟩, hrest, hlen⟩ := hnames
    refine ho.cluster (fun u hu => hQ u ⟨hu.trans hrest, ?_⟩) (ho.short _ hc) hP h
    exact lt_of_le_of_lt hu.length_le hlen
  | long a given =>
    rw [hword] at h hnames
    obtain ⟨⟨key, hkey⟩, hgiven⟩ := hnames
    have ha := ho.long _ hkey
    cases a with
    | flag f =>
      cases given with
      | none => exact State.sound_of_map (fun s' hf => ha s s' hP hf) h
      | some u => cases h
    | store f =>
      cases given with
      | none =>
        obtain rfl : (s, some f) = t := Option.some.inj h
        exact ⟨hP, by simpa using ha⟩
      | some u =>
        exact State.sound_of_map (fun s' hf => ha u s s' (hQ u (hgiven u rfl)) hP hf) h

theorem Keeps.step (ho : o.Keeps P Q) {w : Text} (hQ : ∀ u, u <:+ w → Q u) {s t : State σ}
    (hs : s.Sound P Q) (h : o.step s w = some t) : t.Sound P Q := by
  obtain ⟨s, pending⟩ := s
  obtain ⟨hP, hpending⟩ := hs
  cases pending with
  | some f =>
    obtain ⟨-, s', hf, rfl⟩ := step_waiting_iff.mp h
    exact ⟨hpending f rfl w s s' (hQ w List.suffix_rfl) hP hf, by simp⟩
  | none => exact ho.step_idle (fun u hu => hQ u hu.1) hP h

/-- Whatever an action is given is the end of a word; so what the actions keep, given the
ends of the words, is kept. -/
theorem Keeps.foldlM (ho : o.Keeps P Q) {words : List Text}
    (hQ : ∀ w ∈ words, ∀ u, u <:+ w → Q u) {s t : State σ} (hs : s.Sound P Q)
    (h : words.foldlM o.step s = some t) : t.Sound P Q :=
  foldlM_invariant (State.Sound P Q) (fun hw hs h => ho.step (hQ _ hw) hs h) hs h

end Options
end ArgParse
