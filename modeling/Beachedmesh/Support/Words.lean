import Beachedmesh.Support.PyText
import Mathlib.Data.List.TakeWhile

/-!
# Command lines, as `systemd` splits them

Words are separated by blanks. Quotes wrap a part in which blanks stand for themselves;
they are removed, and a backslash starts an escape, which stands for a character. A
backslash that starts no escape is kept, with the character after it.
-/
namespace Words
open PyText

def isBlank (c : Char) : Bool := c = ' ' || c = '\t' || c = '\n' || c = '\r'

/-- The blanks that end a line. -/
def isBreak (c : Char) : Bool := c = '\n' || c = '\r'

def isQuote (c : Char) : Bool := c = '"' || c = '\''

/-- A character that stands for itself wherever it is. -/
def isPlain (c : Char) : Bool := !isBlank c && !isQuote c && c ≠ '\\'

/-- A text of characters that stand for themselves. -/
def Plain (t : Text) : Prop := ∀ c ∈ t, isPlain c = true

/-- The text is at its end, or at a blank. -/
def Ended (t : Text) : Prop := ∀ c ∈ t.head?, isBlank c = true

/-- The last backslash has nothing after it: every other one goes with a character. -/
def dangling : Text → Bool
  | [] => false
  | ['\\'] => true
  | '\\' :: _ :: t => dangling t
  | _ :: t => dangling t

/-- A text without breaks. What ends in a backslash is none: the next line is joined to it. -/
def Line (t : Text) : Prop := (∀ c ∈ t, isBreak c = false) ∧ dangling t = false

/-! ### Escapes -/

/-- The letters that may follow a backslash. -/
def escapeLetters : List Char := ['a', 'b', 'f', 'n', 'r', 't', 'v', '\\', '"', '\'', 's']

/-- The value of a digit, 16 for what is none. -/
def digitValue (c : Char) : ℕ :=
  if c.isDigit then c.toNat - 48
  else if 'a' ≤ c ∧ c ≤ 'f' then c.toNat - 87
  else if 'A' ≤ c ∧ c ≤ 'F' then c.toNat - 55
  else 16

/-- The numeric escapes: how they start, the base and how many digits. -/
def numericForms : List (Text × ℕ × ℕ) :=
  [(['x'], 16, 2), ([], 8, 3), (['u'], 16, 4), (['U'], 16, 8)]

/-- What may follow the backslash: a letter, a quote or another backslash; or the digits of
a byte or of a code point. -/
inductive Escape : Text → Prop
  | letter {c : Char} (h : c ∈ escapeLetters) : Escape [c]
  | numeric {x t : Text} {base : ℕ} (hform : (x, base, t.length) ∈ numericForms)
      (hdigits : ∀ c ∈ t, digitValue c < base) : Escape (x ++ t)

/-- The escapes that a splitter knows: all the letters, and the numbers that it takes for a
character. -/
structure Knows (known : Text → Prop) : Prop where
  letter : ∀ c ∈ escapeLetters, known [c]
  escape : ∀ {e}, known e → Escape e

/-- How a part of a line reads as a part of a word, from inside the given quote if any to the
end inside another. An escape is a character, or one byte of it. -/
inductive Reads (known : Text → Prop) : Option Char → Text → Text → Option Char → Prop
  | nil {p : Option Char} : Reads known p [] [] p
  | plain {c : Char} {t w : Text} {p : Option Char} (hc : isPlain c = true)
      (h : Reads known none t w p) : Reads known none (c :: t) (c :: w) p
  | opening {q : Char} {t w : Text} {p : Option Char} (hq : isQuote q = true)
      (h : Reads known (some q) t w p) : Reads known none (q :: t) w p
  | closing {q : Char} {t w : Text} {p : Option Char} (h : Reads known none t w p) :
      Reads known (some q) (q :: t) w p
  | inside {q c : Char} {t w : Text} {p : Option Char} (hq : c ≠ q) (hc : c ≠ '\\')
      (h : Reads known (some q) t w p) : Reads known (some q) (c :: t) (c :: w) p
  | escape {q : Option Char} {e v t w : Text} {p : Option Char} (he : known e)
      (hv : v.length ≤ 1) (h : Reads known q t w p) :
      Reads known q ('\\' :: (e ++ t)) (v ++ w) p
  | pair {q : Option Char} {c : Char} {t w : Text} {p : Option Char}
      (hno : ∀ e, known e → ¬ e <+: c :: t) (h : Reads known q t w p) :
      Reads known q ('\\' :: c :: t) ('\\' :: c :: w) p

/-- The text stands for itself: plain characters, and backslashes that start no escape, each
with the character after it. -/
inductive Stands (known : Text → Prop) : Text → Prop
  | nil : Stands known []
  | plain {c : Char} {t : Text} (hc : isPlain c = true) (h : Stands known t) : Stands known (c :: t)
  | pair {c : Char} {t : Text} (hc : isBreak c = false) (hno : ∀ e, known e → ¬ e <+: c :: t)
      (h : Stands known t) : Stands known ('\\' :: c :: t)

/-- The splitter of a line into words, `none` for a line that it refuses. -/
structure Splitter (known : Text → Prop) (split : Text → Option (List Text)) : Prop where
  knows : Knows known
  nil : split [] = some []
  blank : ∀ {c t}, isBlank c = true → split (c :: t) = split t
  stands : ∀ {w t}, w ≠ [] → Stands known w → Ended t → split (w ++ t) = (split t).map (w :: ·)
  item : ∀ {c t ws}, Line (c :: t) → isBlank c = false → split (c :: t) = some ws →
    ∃ raw rest w ws', c :: t = raw ++ rest ∧ raw ≠ [] ∧ Ended rest ∧ ws = w :: ws' ∧
      split rest = some ws' ∧ Reads known none raw w none

theorem isBlank_iff {c : Char} : isBlank c = true ↔ c = ' ' ∨ c = '\t' ∨ c = '\n' ∨ c = '\r' := by
  simp [isBlank, or_assoc]

theorem isBlank_of_isBreak {c : Char} (h : isBreak c = true) : isBlank c = true := by
  simp only [isBreak, Bool.or_eq_true, decide_eq_true_eq] at h
  rcases h with rfl | rfl
  all_goals decide

theorem isBreak_eq_false {c : Char} (h : isBlank c = false) : isBreak c = false := by
  by_contra hbreak
  rw [isBlank_of_isBreak (Bool.eq_true_of_not_eq_false hbreak)] at h
  cases h

theorem isBlank_of_isQuote {q : Char} (h : isQuote q = true) : isBlank q = false := by
  by_contra hblank
  rcases isBlank_iff.mp (Bool.eq_true_of_not_eq_false hblank) with rfl | rfl | rfl | rfl
  all_goals cases h

theorem isPlain_iff {c : Char} :
    isPlain c = true ↔ isBlank c = false ∧ isQuote c = false ∧ c ≠ '\\' := by
  simp [isPlain, and_assoc]

theorem ne_backslash_of_isBlank {c : Char} (h : isBlank c = true) : c ≠ '\\' := by
  rintro rfl
  cases h

theorem ne_backslash_of_isQuote {q : Char} (h : isQuote q = true) : q ≠ '\\' := by
  rintro rfl
  cases h

theorem ne_slash_of_isQuote {q : Char} (h : isQuote q = true) : q ≠ '/' := by
  rintro rfl
  cases h

/-! ### What escapes are made of -/

theorem digitValue_of_not_digit {d : Char} (h : isBlank d = true ∨ d = '\\' ∨ d = '/') :
    digitValue d = 16 := by
  rcases h with h | rfl | rfl
  · rcases isBlank_iff.mp h with rfl | rfl | rfl | rfl
    all_goals decide
  · decide
  · decide

theorem Escape.exists_cons {e : Text} (h : Escape e) : ∃ c e', e = c :: e' ∧
    (∀ d ∈ c :: e', isBlank d = false ∧ d ≠ '/') ∧ '\\' ∉ e' := by
  cases h with
  | letter h =>
    refine ⟨_, [], rfl, fun d hd => ?_, by simp⟩
    obtain rfl := List.mem_singleton.mp hd
    have hall : escapeLetters.all fun c => decide (isBlank c = false ∧ c ≠ '/') := by decide
    exact of_decide_eq_true (List.all_eq_true.mp hall _ h)
  | @numeric x t base hform hdigits =>
    have hdigit : base ≤ 16 → ∀ d ∈ t, (isBlank d = false ∧ d ≠ '/') ∧ d ≠ '\\' := by
      intro hbase d hd
      have hlt := hdigits d hd
      have hnot (h : isBlank d = true ∨ d = '\\' ∨ d = '/') : False := by
        have := digitValue_of_not_digit h
        omega
      exact ⟨⟨Bool.eq_false_of_not_eq_true fun h => hnot (Or.inl h),
        fun h => hnot (Or.inr (Or.inr h))⟩, fun h => hnot (Or.inr (Or.inl h))⟩
    have hlead : ∀ {c : Char}, isBlank c = false ∧ c ≠ '/' → base ≤ 16 →
        ∃ c' e', [c] ++ t = c' :: e' ∧ (∀ d ∈ c' :: e', isBlank d = false ∧ d ≠ '/') ∧
          '\\' ∉ e' := fun {c} hc hbase => by
      refine ⟨c, t, rfl, fun d hd => ?_, fun hmem => (hdigit hbase _ hmem).2 rfl⟩
      rcases List.mem_cons.mp hd with rfl | hd
      · exact hc
      · exact (hdigit hbase d hd).1
    simp only [numericForms, List.mem_cons, List.not_mem_nil, or_false, Prod.mk.injEq] at hform
    rcases hform with ⟨rfl, rfl, -⟩ | ⟨rfl, rfl, hlen⟩ | ⟨rfl, rfl, -⟩ | ⟨rfl, rfl, -⟩
    · exact hlead (by decide) (by norm_num)
    · cases t with
      | nil => simp at hlen
      | cons c t =>
        refine ⟨c, t, rfl, fun d hd => (hdigit (by norm_num) d hd).1, fun hmem => ?_⟩
        exact (hdigit (by norm_num) _ (List.mem_cons_of_mem c hmem)).2 rfl
    · exact hlead (by decide) (by norm_num)
    · exact hlead (by decide) (by norm_num)

theorem Escape.length_pos {e : Text} (h : Escape e) : 0 < e.length := by
  obtain ⟨c, e', rfl, -⟩ := h.exists_cons
  simp

theorem Escape.not_mem_of_isBlank {e : Text} (h : Escape e) {c : Char} (hc : isBlank c = true) :
    c ∉ e := by
  obtain ⟨c', e', rfl, hno, -⟩ := h.exists_cons
  intro hmem
  simp [(hno c hmem).1] at hc

theorem Escape.slash_not_mem {e : Text} (h : Escape e) : '/' ∉ e := by
  obtain ⟨c', e', rfl, hno, -⟩ := h.exists_cons
  exact fun hmem => (hno _ hmem).2 rfl

/-! ### Where a backslash is left over -/

theorem dangling_cons {c : Char} (hc : c ≠ '\\') (t : Text) : dangling (c :: t) = dangling t := by
  rw [dangling]
  · exact fun h _ => hc h
  · exact fun c' t' h _ => hc h

theorem dangling_append_of_not_mem {s : Text} (hs : '\\' ∉ s) (t : Text) :
    dangling (s ++ t) = dangling t := by
  induction s with
  | nil => rfl
  | cons c s ih =>
    rw [List.mem_cons, not_or] at hs
    rw [List.cons_append, dangling_cons (Ne.symm hs.1), ih hs.2]

/-- What is neither the last backslash nor one with a character after it is none. -/
theorem ne_backslash_of_unpaired {d : Char} {s : Text} (hlast : d = '\\' → s = [] → False)
    (hpair : ∀ c t, d = '\\' → s = c :: t → False) : d ≠ '\\' := by
  intro h
  cases s with
  | nil => exact hlast h rfl
  | cons c s => exact hpair c s h rfl

/-- A character that goes with the last backslash. -/
theorem dangling_append_of_dangling {s : Text} (hs : dangling s = true) (c : Char) (t : Text) :
    dangling (s ++ c :: t) = dangling t := by
  induction s using dangling.induct with
  | case1 => cases hs
  | case2 => rfl
  | case3 d s ih => exact ih hs
  | case4 d s hlast hpair ih =>
    have hne := ne_backslash_of_unpaired hlast hpair
    rw [dangling_cons hne] at hs
    rw [List.cons_append, dangling_cons hne, ih hs]

theorem dangling_append {s : Text} (hs : dangling s = false) (t : Text) :
    dangling (s ++ t) = dangling t := by
  induction s using dangling.induct with
  | case1 => rfl
  | case2 => cases hs
  | case3 d s ih => exact ih hs
  | case4 d s hlast hpair ih =>
    have hne := ne_backslash_of_unpaired hlast hpair
    rw [dangling_cons hne] at hs
    rw [List.cons_append, dangling_cons hne, ih hs]

/-- Two characters without a backslash leave nothing over. -/
theorem dangling_append_cons_cons {c d : Char} (hc : c ≠ '\\') (hd : d ≠ '\\') (s t : Text) :
    dangling (s ++ c :: d :: t) = dangling t := by
  cases hs : dangling s with
  | true => rw [dangling_append_of_dangling hs, dangling_cons hd]
  | false => rw [dangling_append hs, dangling_cons hc, dangling_cons hd]

theorem mem_of_dangling {t : Text} (h : dangling t = true) : '\\' ∈ t := by
  by_contra hnot
  have happend := dangling_append_of_not_mem hnot []
  rw [List.append_nil, h] at happend
  cases happend

theorem Escape.dangling_append {e : Text} (h : Escape e) (t : Text) :
    dangling ('\\' :: (e ++ t)) = dangling t := by
  obtain ⟨c, e', rfl, -, hno⟩ := h.exists_cons
  rw [List.cons_append, dangling, dangling_append_of_not_mem hno]

variable {known : Text → Prop}

theorem Reads.dangling_append (hk : Knows known) {p p' : Option Char} {t w : Text}
    (h : Reads known p t w p') (hp : ∀ q ∈ p, isQuote q = true) (rest : Text) :
    dangling (t ++ rest) = dangling rest := by
  induction h with
  | nil => rfl
  | plain hc h ih => rw [List.cons_append, dangling_cons (isPlain_iff.mp hc).2.2, ih (by simp)]
  | opening hq h ih =>
    rw [List.cons_append, dangling_cons (ne_backslash_of_isQuote hq), ih (by simpa using hq)]
  | closing h ih =>
    rw [List.cons_append, dangling_cons (ne_backslash_of_isQuote (hp _ rfl)), ih (by simp)]
  | inside hq hc h ih => rw [List.cons_append, dangling_cons hc, ih hp]
  | escape he hv h ih =>
    rw [List.cons_append, List.append_assoc, (hk.escape he).dangling_append, ih hp]
  | pair hno h ih => rw [List.cons_append, List.cons_append, dangling, ih hp]

theorem Line.of_append {s t : Text} (h : Line (s ++ t)) (hs : dangling (s ++ t) = dangling t) :
    Line t :=
  ⟨fun c hc => h.1 c (List.mem_append_right s hc), hs ▸ h.2⟩

theorem Line.tail {c : Char} {t : Text} (h : Line (c :: t)) (hc : c ≠ '\\') : Line t :=
  Line.of_append (s := [c]) h (dangling_cons hc t)

/-! ### Texts by parts -/

/-- A character that is not in the front part is in the rest. -/
theorem exists_of_append_eq {α : Type*} {c : α} {a b x t : List α} (h : a ++ c :: b = x ++ t)
    (hc : c ∉ x) : ∃ a', a = x ++ a' ∧ t = a' ++ c :: b := by
  rcases List.append_eq_append_iff.mp h with ⟨x', rfl, hx⟩ | ⟨a', rfl, rfl⟩
  · cases x' with
    | nil => exact ⟨[], by simp, by simpa using hx.symm⟩
    | cons d x' =>
      obtain ⟨rfl, -⟩ := List.cons.inj hx
      exact absurd (by simp) hc
  · exact ⟨a', rfl, rfl⟩

theorem ended_nil : Ended [] := by simp [Ended]

@[simp] theorem ended_cons_iff {c : Char} {t : Text} : Ended (c :: t) ↔ isBlank c = true := by
  simp [Ended]

theorem Ended.of_append {s t : Text} (h : Ended (s ++ t)) : Ended s := by
  cases s with
  | nil => exact ended_nil
  | cons c s => simpa using h

theorem plain_of_all {t : Text} (h : t.all isPlain = true) : Plain t := List.all_eq_true.mp h

theorem Plain.append {s t : Text} (hs : Plain s) (ht : Plain t) : Plain (s ++ t) := by
  intro c hc
  exact (List.mem_append.mp hc).elim (hs c) (ht c)

theorem Plain.isBlank_of_mem {t : Text} (h : Plain t) {c : Char} (hc : c ∈ t) :
    isBlank c = false := (isPlain_iff.mp (h c hc)).1

theorem Plain.isQuote_of_mem {t : Text} (h : Plain t) {c : Char} (hc : c ∈ t) :
    isQuote c = false := (isPlain_iff.mp (h c hc)).2.1

theorem Plain.not_mem {t : Text} (h : Plain t) : '\\' ∉ t := fun hmem =>
  (isPlain_iff.mp (h _ hmem)).2.2 rfl

theorem Plain.dangling {t : Text} (h : Plain t) : dangling t = false := by
  have happend := dangling_append_of_not_mem h.not_mem []
  rwa [List.append_nil] at happend

theorem Plain.stands {t : Text} (h : Plain t) : Stands known t := by
  induction t with
  | nil => exact Stands.nil
  | cons c t ih => exact Stands.plain (h c (by simp)) (ih fun d hd => h d (by simp [hd]))

/-! ### What stands -/

/-- Without a backslash, only plain characters stand. -/
theorem stands_iff_plain {t : Text} (ht : '\\' ∉ t) : Stands known t ↔ Plain t := by
  refine ⟨fun h => ?_, Plain.stands⟩
  induction h with
  | nil => simp [Plain]
  | plain hc h ih =>
    rw [List.mem_cons, not_or] at ht
    exact List.forall_mem_cons.mpr ⟨hc, ih ht.2⟩
  | pair => exact absurd (List.mem_cons_self ..) ht

theorem Stands.dangling_append {s : Text} (h : Stands known s) (t : Text) :
    Words.dangling (s ++ t) = Words.dangling t := by
  induction h with
  | nil => rfl
  | plain hc h ih => rw [List.cons_append, dangling_cons (isPlain_iff.mp hc).2.2, ih]
  | pair hc hno h ih => rw [List.cons_append, List.cons_append, Words.dangling, ih]

theorem Stands.isBreak_of_mem {t : Text} (h : Stands known t) : ∀ c ∈ t, isBreak c = false := by
  induction h with
  | nil => simp
  | plain hc h ih =>
    exact List.forall_mem_cons.mpr ⟨isBreak_eq_false (isPlain_iff.mp hc).1, ih⟩
  | pair hc hno h ih =>
    exact List.forall_mem_cons.mpr ⟨by decide, List.forall_mem_cons.mpr ⟨hc, ih⟩⟩

/-! ### How a word reads -/

theorem Reads.mem_quote {p : Option Char} {t w : Text} (h : Reads known p t w none) :
    ∀ q ∈ p, q ∈ t := by
  generalize hend : (none : Option Char) = p' at h
  induction h with
  | nil => simp [← hend]
  | plain => simp
  | opening => simp
  | closing => simp
  | inside _ _ _ ih => exact fun q hq => List.mem_cons_of_mem _ (ih hend q hq)
  | escape _ _ _ ih =>
    exact fun q hq => List.mem_cons_of_mem _ (List.mem_append_right _ (ih hend q hq))
  | pair _ _ ih =>
    exact fun q hq => List.mem_cons_of_mem _ (List.mem_cons_of_mem _ (ih hend q hq))

/-- A word is no longer than what it was read from. -/
theorem Reads.length_le (hk : Knows known) {p p' : Option Char} {t w : Text}
    (h : Reads known p t w p') : w.length ≤ t.length := by
  induction h with
  | nil => exact le_rfl
  | plain _ _ ih => simpa using ih
  | opening _ _ ih => exact ih.trans (Nat.le_succ _)
  | closing _ ih => exact ih.trans (Nat.le_succ _)
  | inside _ _ _ ih => simpa using ih
  | escape he hv _ ih =>
    have hpos := (hk.escape he).length_pos
    rw [List.length_cons, List.length_append, List.length_append]
    omega
  | pair _ _ ih => simpa using ih

/-- A word as long as what it was read from stands for itself. -/
theorem Reads.eq_of_length (hk : Knows known) {p' : Option Char} {t w : Text}
    (h : Reads known none t w p') (hlen : w.length = t.length) :
    p' = none ∧ w = t ∧ ((∀ c ∈ t, isBreak c = false) → Stands known t) := by
  generalize hp : (none : Option Char) = p at h
  induction h with
  | nil => exact ⟨rfl, rfl, fun _ => Stands.nil⟩
  | plain hc h ih =>
    obtain ⟨rfl, rfl, hstands⟩ := ih (by simpa using hlen) rfl
    refine ⟨rfl, rfl, fun hline => Stands.plain hc (hstands fun d hd => ?_)⟩
    exact hline d (List.mem_cons_of_mem _ hd)
  | opening hq h ih =>
    have hle := h.length_le hk
    rw [List.length_cons] at hlen
    omega
  | closing => cases hp
  | inside => cases hp
  | escape he hv h ih =>
    have hpos := (hk.escape he).length_pos
    have hle := h.length_le hk
    rw [List.length_cons, List.length_append, List.length_append] at hlen
    omega
  | pair hno h ih =>
    obtain ⟨rfl, rfl, hstands⟩ := ih (by simpa using hlen) hp
    refine ⟨rfl, rfl, fun hline => Stands.pair (hline _ (by simp)) hno (hstands fun d hd => ?_)⟩
    exact hline d (by simp [hd])

theorem Reads.eq_of_plain {p' : Option Char} {t w : Text} (h : Reads known none t w p')
    (ht : Plain t) : w = t := by
  generalize hp : (none : Option Char) = p at h
  induction h with
  | nil => rfl
  | plain hc h ih => rw [ih (fun d hd => ht d (by simp [hd])) rfl]
  | opening hq h ih => simp [ht.isQuote_of_mem (List.mem_cons_self ..)] at hq
  | closing => cases hp
  | inside => cases hp
  | escape => exact absurd (List.mem_cons_self ..) ht.not_mem
  | pair => exact absurd (List.mem_cons_self ..) ht.not_mem

/-- Outside quotes, plain characters do not lead to a blank. -/
theorem not_reads_of_blank {z t w : Text} {b : Char} {p' : Option Char} (hz : Plain z)
    (hb : isBlank b = true) : ¬ Reads known none (z ++ b :: t) w p' := by
  intro h
  generalize hx : z ++ b :: t = x at h
  generalize hp : (none : Option Char) = p at h
  induction h generalizing z with
  | nil => simp at hx
  | plain hc h ih =>
    cases z with
    | nil =>
      obtain rfl := (List.cons.inj hx).1
      simp [(isPlain_iff.mp hc).1] at hb
    | cons c z =>
      obtain ⟨rfl, rfl⟩ := List.cons.inj hx
      exact ih (fun d hd => hz d (by simp [hd])) rfl rfl
  | opening hq h ih =>
    cases z with
    | nil =>
      obtain rfl := (List.cons.inj hx).1
      simp [isBlank_of_isQuote hq] at hb
    | cons c z =>
      obtain rfl := (List.cons.inj hx).1
      simp [hz.isQuote_of_mem (List.mem_cons_self ..)] at hq
  | closing => cases hp
  | inside => cases hp
  | escape | pair =>
    cases z with
    | nil => exact ne_backslash_of_isBlank hb (List.cons.inj hx).1
    | cons c z =>
      obtain rfl := (List.cons.inj hx).1
      exact hz.not_mem (List.mem_cons_self ..)

/-- A word does not reach over a blank, after which there is no quote. -/
theorem Reads.not_over_blank (hk : Knows known) {p : Option Char} {y t w : Text} {b : Char}
    (hy : Words.dangling y = false) (hb : isBlank b = true) (ht : ∀ c ∈ t, isQuote c = false)
    (hp : ∀ q ∈ p, isQuote q = true) : ¬ Reads known p (y ++ b :: t) w none := by
  intro h
  generalize hx : y ++ b :: t = x at h
  generalize hend : (none : Option Char) = p' at h
  induction h generalizing y with
  | nil => simp at hx
  | plain hc h ih =>
    cases y with
    | nil =>
      obtain rfl := (List.cons.inj hx).1
      simp [(isPlain_iff.mp hc).1] at hb
    | cons d y =>
      obtain ⟨rfl, rfl⟩ := List.cons.inj hx
      exact ih (by rwa [dangling_cons (isPlain_iff.mp hc).2.2] at hy) (by simp) rfl hend
  | @opening q _ _ _ hq h ih =>
    cases y with
    | nil =>
      obtain rfl := (List.cons.inj hx).1
      simp [isBlank_of_isQuote hq] at hb
    | cons d y =>
      obtain ⟨rfl, rfl⟩ := List.cons.inj hx
      rw [dangling_cons (ne_backslash_of_isQuote hq)] at hy
      exact ih hy (by simpa using hq) rfl hend
  | @closing q _ _ _ h ih =>
    have hq := hp q rfl
    cases y with
    | nil =>
      obtain rfl := (List.cons.inj hx).1
      simp [isBlank_of_isQuote hq] at hb
    | cons d y =>
      obtain ⟨rfl, rfl⟩ := List.cons.inj hx
      rw [dangling_cons (ne_backslash_of_isQuote hq)] at hy
      exact ih hy (by simp) rfl hend
  | @inside q _ _ _ _ hcq hc h ih =>
    cases y with
    | nil =>
      obtain ⟨rfl, rfl⟩ := List.cons.inj hx
      subst hend
      have hquote := ht q (h.mem_quote q rfl)
      simp [hp q rfl] at hquote
    | cons d y =>
      obtain ⟨rfl, rfl⟩ := List.cons.inj hx
      exact ih (by rwa [dangling_cons hc] at hy) hp rfl hend
  | @escape _ e _ _ _ _ he hv h ih =>
    cases y with
    | nil => exact ne_backslash_of_isBlank hb (List.cons.inj hx).1
    | cons d y =>
      obtain ⟨rfl, htail⟩ := List.cons.inj hx
      obtain ⟨y', rfl, rfl⟩ := exists_of_append_eq htail ((hk.escape he).not_mem_of_isBlank hb)
      exact ih (by rwa [(hk.escape he).dangling_append] at hy) hp rfl hend
  | pair hno h ih =>
    rcases y with _ | ⟨d, _ | ⟨d', y⟩⟩
    · exact ne_backslash_of_isBlank hb (List.cons.inj hx).1
    · obtain ⟨rfl, -⟩ := List.cons.inj hx
      cases hy
    · obtain ⟨rfl, htail⟩ := List.cons.inj hx
      obtain ⟨rfl, rfl⟩ := List.cons.inj htail
      exact ih (y := y) hy hp rfl hend

/-- So it ends within a part that is followed by a blank and no quotes. -/
theorem Reads.within (hk : Knows known) {raw rest w y tail : Text}
    (h : Reads known none raw w none) (heq : raw ++ rest = y ++ tail)
    (hy : Words.dangling y = false) (htail : ∀ c ∈ tail, isQuote c = false)
    (hended : Ended tail) : ∃ y', y = raw ++ y' ∧ rest = y' ++ tail := by
  rcases List.append_eq_append_iff.mp heq with ⟨y', rfl, rfl⟩ | ⟨t, rfl, rfl⟩
  · exact ⟨y', rfl, rfl⟩
  · cases t with
    | nil => exact ⟨[], by simp, by simp⟩
    | cons b t =>
      rw [List.cons_append, ended_cons_iff] at hended
      exact absurd h (Reads.not_over_blank hk hy hended (fun c hc => htail c (by simp [hc]))
        (by simp))

/-- After a part that ends in a backslash come a space and plain characters: a word ends in
the part, or with these characters. -/
theorem Reads.within_of_dangling (hk : Knows known) {raw rest w y z tail : Text}
    (h : Reads known none raw w none) (heq : raw ++ rest = (y ++ ' ' :: z) ++ tail)
    (hy : Words.dangling y = true) (hz : Plain z) (htail : ∀ c ∈ tail, isQuote c = false)
    (hended : Ended tail) (hrest : Ended rest) :
    (raw = y ++ ' ' :: z ∧ rest = tail) ∨
      ∃ y', y = raw ++ y' ∧ rest = y' ++ ' ' :: (z ++ tail) := by
  have hafter : Words.dangling (y ++ ' ' :: z) = false := by
    rw [dangling_append_of_dangling hy, hz.dangling]
  obtain ⟨x, hx, rfl⟩ := h.within hk heq hafter htail hended
  rcases List.append_eq_append_iff.mp hx with ⟨x', rfl, hx'⟩ | ⟨y', hy', rfl⟩
  · cases x' with
    | nil =>
      have hno := h.dangling_append hk (by simp) []
      rw [List.append_nil, List.append_nil, hy] at hno
      cases hno
    | cons d x' =>
      obtain ⟨rfl, hzx⟩ := List.cons.inj hx'
      cases x with
      | nil =>
        obtain rfl : z = x' := hzx.trans (List.append_nil x')
        exact Or.inl ⟨rfl, rfl⟩
      | cons d x =>
        rw [List.cons_append, ended_cons_iff] at hrest
        simp [hz.isBlank_of_mem (c := d) (by simp [hzx])] at hrest
  · exact Or.inr ⟨y', hy', by simp⟩

/-- A word that reaches over a blank and has plain characters from there on ends with them. -/
theorem Reads.suffix_of_blank (hk : Knows known) {p : Option Char} {y z w : Text} {b : Char}
    (hb : isBlank b = true) (hz : Plain z) (hp : ∀ q ∈ p, isQuote q = true)
    (h : Reads known p (y ++ b :: z) w none) : z <:+ w := by
  generalize hx : y ++ b :: z = x at h
  generalize hend : (none : Option Char) = p' at h
  induction h generalizing y with
  | nil => simp at hx
  | @plain c _ _ _ hc h ih =>
    cases y with
    | nil =>
      obtain rfl := (List.cons.inj hx).1
      simp [(isPlain_iff.mp hc).1] at hb
    | cons d y =>
      obtain ⟨rfl, rfl⟩ := List.cons.inj hx
      exact (ih (by simp) rfl hend).trans (List.suffix_cons ..)
  | @opening q _ _ _ hq h ih =>
    cases y with
    | nil =>
      obtain rfl := (List.cons.inj hx).1
      simp [isBlank_of_isQuote hq] at hb
    | cons d y =>
      obtain ⟨rfl, rfl⟩ := List.cons.inj hx
      exact ih (by simpa using hq) rfl hend
  | @closing q _ _ _ h ih =>
    have hq := hp q rfl
    cases y with
    | nil =>
      obtain rfl := (List.cons.inj hx).1
      simp [isBlank_of_isQuote hq] at hb
    | cons d y =>
      obtain ⟨rfl, rfl⟩ := List.cons.inj hx
      exact ih (by simp) rfl hend
  | @inside q c _ _ _ hcq hc h ih =>
    cases y with
    | nil =>
      obtain ⟨rfl, rfl⟩ := List.cons.inj hx
      subst hend
      have hquote := hz.isQuote_of_mem (h.mem_quote q rfl)
      simp [hp q rfl] at hquote
    | cons d y =>
      obtain ⟨rfl, rfl⟩ := List.cons.inj hx
      exact (ih hp rfl hend).trans (List.suffix_cons ..)
  | @escape _ e v _ _ _ he hv h ih =>
    cases y with
    | nil => exact absurd (List.cons.inj hx).1 (ne_backslash_of_isBlank hb)
    | cons d y =>
      obtain ⟨rfl, htail⟩ := List.cons.inj hx
      obtain ⟨y', rfl, rfl⟩ := exists_of_append_eq htail ((hk.escape he).not_mem_of_isBlank hb)
      exact (ih hp rfl hend).trans (List.suffix_append ..)
  | @pair q c _ _ _ hno h ih =>
    rcases y with _ | ⟨d, _ | ⟨d', y⟩⟩
    · exact absurd (List.cons.inj hx).1 (ne_backslash_of_isBlank hb)
    · -- the blank goes with the backslash before it
      obtain ⟨rfl, rfl⟩ := List.cons.inj (List.cons.inj hx).2
      subst hend
      cases q with
      | none =>
        rw [h.eq_of_plain hz]
        exact (List.suffix_cons ..).trans (List.suffix_cons ..)
      | some q =>
        have hquote := hz.isQuote_of_mem (h.mem_quote q rfl)
        simp [hp q rfl] at hquote
    · obtain ⟨rfl, htail⟩ := List.cons.inj hx
      obtain ⟨rfl, rfl⟩ := List.cons.inj htail
      exact ((ih hp rfl hend).trans (List.suffix_cons ..)).trans (List.suffix_cons ..)

/-- A slash is read as it stands; up to it, no slash is lost. -/
theorem Reads.slash (hk : Knows known) {p p' : Option Char} {a b w : Text}
    (hp : ∀ q ∈ p, isQuote q = true) (h : Reads known p (a ++ '/' :: b) w p') :
    ∃ a' b' q, w = a' ++ '/' :: b' ∧ Reads known p (a ++ ['/']) (a' ++ ['/']) q ∧
      Reads known q b b' p' ∧ a.count '/' ≤ a'.count '/' := by
  generalize hx : a ++ '/' :: b = x at h
  induction h generalizing a with
  | nil => simp at hx
  | @plain c _ w _ hc h ih =>
    cases a with
    | nil =>
      obtain ⟨rfl, rfl⟩ := List.cons.inj hx
      exact ⟨[], w, none, rfl, .plain hc .nil, h, le_rfl⟩
    | cons d a =>
      obtain ⟨rfl, rfl⟩ := List.cons.inj hx
      obtain ⟨a', b', q, rfl, h₁, h₂, hcount⟩ := ih (by simp) rfl
      exact ⟨d :: a', b', q, rfl, .plain hc h₁, h₂, by simpa [List.count_cons] using hcount⟩
  | @opening q _ _ _ hq h ih =>
    cases a with
    | nil =>
      obtain rfl := (List.cons.inj hx).1
      cases hq
    | cons d a =>
      obtain ⟨rfl, rfl⟩ := List.cons.inj hx
      have hne := ne_slash_of_isQuote hq
      obtain ⟨a', b', q, rfl, h₁, h₂, hcount⟩ := ih (by simpa using hq) rfl
      exact ⟨a', b', q, rfl, .opening hq h₁, h₂, by simpa [List.count_cons, hne] using hcount⟩
  | @closing q _ _ _ h ih =>
    have hq := hp q rfl
    cases a with
    | nil =>
      obtain rfl := (List.cons.inj hx).1
      cases hq
    | cons d a =>
      obtain ⟨rfl, rfl⟩ := List.cons.inj hx
      have hne := ne_slash_of_isQuote hq
      obtain ⟨a', b', q, rfl, h₁, h₂, hcount⟩ := ih (by simp) rfl
      exact ⟨a', b', q, rfl, .closing h₁, h₂, by simpa [List.count_cons, hne] using hcount⟩
  | @inside q c _ w _ hcq hc h ih =>
    cases a with
    | nil =>
      obtain ⟨rfl, rfl⟩ := List.cons.inj hx
      exact ⟨[], w, some q, rfl, .inside hcq hc .nil, h, le_rfl⟩
    | cons d a =>
      obtain ⟨rfl, rfl⟩ := List.cons.inj hx
      obtain ⟨a', b', q, rfl, h₁, h₂, hcount⟩ := ih hp rfl
      exact ⟨d :: a', b', q, rfl, .inside hcq hc h₁, h₂, by simpa [List.count_cons] using hcount⟩
  | @escape _ e v _ _ _ he hv h ih =>
    cases a with
    | nil => exact absurd (List.cons.inj hx).1 (by decide)
    | cons d a =>
      obtain ⟨rfl, htail⟩ := List.cons.inj hx
      have hslash := (hk.escape he).slash_not_mem
      obtain ⟨a₁, rfl, rfl⟩ := exists_of_append_eq htail hslash
      obtain ⟨a', b', q, rfl, h₁, h₂, hcount⟩ := ih hp rfl
      refine ⟨v ++ a', b', q, by simp, ?_, h₂, ?_⟩
      · have hread := Reads.escape he hv h₁
        simpa using hread
      · have hzero : e.count '/' = 0 := List.count_eq_zero.mpr hslash
        simp only [List.count_cons, List.count_append, hzero]
        simp
        omega
  | @pair _ c _ w _ hno h ih =>
    rcases a with _ | ⟨d, _ | ⟨d', a⟩⟩
    · exact absurd (List.cons.inj hx).1 (by decide)
    · -- the slash goes with the backslash before it
      obtain ⟨rfl, htail⟩ := List.cons.inj hx
      obtain ⟨rfl, rfl⟩ := List.cons.inj htail
      refine ⟨['\\'], w, _, rfl, .pair (fun e he hpre => ?_) .nil, h, by simp⟩
      exact hno e he (hpre.trans (by simp))
    · obtain ⟨rfl, htail⟩ := List.cons.inj hx
      obtain ⟨rfl, rfl⟩ := List.cons.inj htail
      obtain ⟨a', b', q, rfl, h₁, h₂, hcount⟩ := ih hp rfl
      refine ⟨'\\' :: d' :: a', b', q, rfl, .pair (fun e he hpre => ?_) h₁, h₂, ?_⟩
      · refine hno e he (hpre.trans ?_)
        exact ⟨b, by simp⟩
      · simpa [List.count_cons] using hcount

/-! ### Splitting -/

/-- The words, each after a space. -/
def spaced (ws : List Text) : Text := ws.flatMap (' ' :: ·)

theorem spaced_cons (w : Text) (ws : List Text) : spaced (w :: ws) = ' ' :: (w ++ spaced ws) := rfl

theorem intercalate_cons_eq_spaced (w : Text) (ws : List Text) :
    [' '].intercalate (w :: ws) = w ++ spaced ws := by
  induction ws generalizing w with
  | nil => rw [List.intercalate_singleton, spaced, List.flatMap_nil, List.append_nil]
  | cons v ws ih =>
    rw [List.intercalate_cons_cons, ih, spaced_cons, List.append_assoc, List.singleton_append]

theorem ended_spaced (ws : List Text) : Ended (spaced ws) := by
  cases ws with
  | nil => exact ended_nil
  | cons w ws => exact ended_cons_iff.mpr rfl

theorem forall_mem_spaced {P : Char → Prop} (hspace : P ' ') {ws : List Text}
    (hws : ∀ w ∈ ws, ∀ c ∈ w, P c) : ∀ c ∈ spaced ws, P c := by
  intro c hc
  obtain ⟨w, hw, hcw⟩ := List.mem_flatMap.mp hc
  rcases List.mem_cons.mp hcw with rfl | hcw
  · exact hspace
  · exact hws w hw c hcw

theorem dangling_spaced {ws : List Text} (hws : ∀ w ∈ ws, Stands known w) :
    dangling (spaced ws) = false := by
  induction ws with
  | nil => rfl
  | cons w ws ih =>
    rw [List.forall_mem_cons] at hws
    rw [spaced_cons, dangling_cons (by decide), hws.1.dangling_append, ih hws.2]

namespace Splitter

variable {split : Text → Option (List Text)} (hs : Splitter known split)
include hs

/-- What stands at the front is the first word. -/
theorem stands_inv {w t : Text} {ws : List Text} (hw : w ≠ []) (hstands : Stands known w)
    (ht : Ended t) (h : split (w ++ t) = some ws) : ∃ ws', ws = w :: ws' ∧ split t = some ws' := by
  rw [hs.stands hw hstands ht] at h
  obtain ⟨ws', hws', rfl⟩ := Option.map_eq_some_iff.mp h
  exact ⟨ws', rfl, hws'⟩

/-- Words that stand, with spaces before them, are the words again. -/
theorem split_spaced {ws : List Text} (hws : ∀ w ∈ ws, w ≠ [] ∧ Stands known w) :
    split (spaced ws) = some ws := by
  induction ws with
  | nil => exact hs.nil
  | cons w ws ih =>
    obtain ⟨hw, hstands⟩ := hws w (by simp)
    rw [spaced_cons, hs.blank rfl, hs.stands hw hstands (ended_spaced ws),
      ih fun v hv => hws v (by simp [hv])]
    rfl

/-- The first word, and the line that is left. -/
theorem first {c : Char} {t : Text} {ws : List Text} (hline : Line (c :: t))
    (hc : isBlank c = false) (h : split (c :: t) = some ws) :
    ∃ raw rest w ws', c :: t = raw ++ rest ∧ 0 < raw.length ∧ Ended rest ∧ ws = w :: ws' ∧
      split rest = some ws' ∧ Reads known none raw w none ∧ Line rest := by
  obtain ⟨raw, rest, w, ws', heq, hraw, hrest, rfl, hws', hread⟩ := hs.item hline hc h
  refine ⟨raw, rest, w, ws', heq, List.length_pos_iff.mpr hraw, hrest, rfl, hws', hread, ?_⟩
  exact Line.of_append (heq ▸ hline) (hread.dangling_append hs.knows (by simp) rest)

/-- The words of a part that is followed by a blank and no quotes: they are shorter than
the part, or the part stands and is one word. -/
theorem words_append {y tail : Text} {ws : List Text} (hline : Line (y ++ tail))
    (hy : dangling y = false) (htail : ∀ c ∈ tail, isQuote c = false) (hended : Ended tail)
    (h : split (y ++ tail) = some ws) :
    ∃ ws₁ ws₂, ws = ws₁ ++ ws₂ ∧ split tail = some ws₂ ∧
      ((∀ v ∈ ws₁, v.length < y.length) ∨ Stands known y ∧ ws₁ = [y]) := by
  induction hn : y.length using Nat.strong_induction_on generalizing y ws with
  | h n ih =>
    subst hn
    cases y with
    | nil => exact ⟨[], ws, rfl, h, Or.inl (by simp)⟩
    | cons c y =>
      rw [List.cons_append] at hline h
      cases hc : isBlank c with
      | true =>
        have hne := ne_backslash_of_isBlank hc
        rw [hs.blank hc] at h
        rw [dangling_cons hne] at hy
        obtain ⟨ws₁, ws₂, rfl, hws₂, hshort⟩ := ih y.length (by simp) (hline.tail hne) hy h rfl
        refine ⟨ws₁, ws₂, rfl, hws₂, Or.inl fun v hv => ?_⟩
        rw [List.length_cons]
        rcases hshort with hshort | ⟨-, rfl⟩
        · have := hshort v hv
          omega
        · obtain rfl := List.mem_singleton.mp hv
          omega
      | false =>
        obtain ⟨raw, rest, w, ws', heq, hraw, hrest, rfl, hws', hread, hline'⟩ :=
          hs.first hline hc h
        rw [← List.cons_append] at heq
        obtain ⟨y', hy', rfl⟩ := hread.within hs.knows heq.symm hy htail hended
        have hle := hread.length_le hs.knows
        rw [hy'] at hy ⊢
        rw [hread.dangling_append hs.knows (by simp)] at hy
        rw [List.length_append]
        cases y' with
        | nil =>
          rw [List.append_nil] at hy' ⊢
          refine ⟨[w], ws', rfl, hws', ?_⟩
          rcases hle.lt_or_eq with hlt | heq'
          · exact Or.inl (by simpa using hlt)
          · obtain ⟨-, rfl, hstands⟩ := hread.eq_of_length hs.knows heq'
            refine Or.inr ⟨hstands fun d hd => hline.1 d ?_, rfl⟩
            rw [← List.cons_append, hy']
            exact List.mem_append_left tail hd
        | cons d y' =>
          have hlen := congrArg List.length hy'
          rw [List.length_append] at hlen
          obtain ⟨ws₁, ws₂, rfl, hws₂, hshort⟩ :=
            ih (d :: y').length (by omega) hline' hy hws' rfl
          refine ⟨w :: ws₁, ws₂, rfl, hws₂, Or.inl fun v hv => ?_⟩
          rw [List.length_cons]
          rcases List.mem_cons.mp hv with rfl | hv
          · omega
          · rcases hshort with hshort | ⟨-, rfl⟩
            · have := hshort v hv
              rw [List.length_cons] at this
              omega
            · obtain rfl := List.mem_singleton.mp hv
              rw [List.length_cons]
              omega

/-- The words of a part that ends in a backslash before a space and plain characters: they
are shorter than the part, or one of them ends with the plain characters. -/
theorem words_dangling {y z tail : Text} {ws : List Text}
    (hline : Line (y ++ ' ' :: (z ++ tail))) (hy : dangling y = true) (hz : Plain z)
    (htail : ∀ c ∈ tail, isQuote c = false) (hended : Ended tail)
    (h : split (y ++ ' ' :: (z ++ tail)) = some ws) :
    ∃ ws₁ w ws₂, ws = ws₁ ++ w :: ws₂ ∧ split tail = some ws₂ ∧
      (∀ v ∈ ws₁, v.length < y.length) ∧ z <:+ w := by
  induction hn : y.length using Nat.strong_induction_on generalizing y ws with
  | h n ih =>
    subst hn
    cases y with
    | nil => cases hy
    | cons c y =>
      rw [List.cons_append] at hline h
      cases hc : isBlank c with
      | true =>
        have hne := ne_backslash_of_isBlank hc
        rw [hs.blank hc] at h
        rw [dangling_cons hne] at hy
        obtain ⟨ws₁, w, ws₂, rfl, hws₂, hshort, hw⟩ :=
          ih y.length (by simp) (hline.tail hne) hy h rfl
        refine ⟨ws₁, w, ws₂, rfl, hws₂, fun v hv => ?_, hw⟩
        have := hshort v hv
        rw [List.length_cons]
        omega
      | false =>
        obtain ⟨raw, rest, w, ws', heq, hraw, hrest, rfl, hws', hread, hline'⟩ :=
          hs.first hline hc h
        rw [← List.cons_append] at heq
        have hle := hread.length_le hs.knows
        have heq' : raw ++ rest = (c :: y ++ ' ' :: z) ++ tail := by
          rw [← heq]
          simp
        rcases hread.within_of_dangling hs.knows heq' hy hz htail hended hrest with
          ⟨rfl, rfl⟩ | ⟨y', hy', rfl⟩
        · -- the word reaches over the space
          exact ⟨[], w, ws', rfl, hws', by simp,
            hread.suffix_of_blank hs.knows (by decide) hz (by simp)⟩
        · rw [hy', hread.dangling_append hs.knows (by simp)] at hy
          have hlen := congrArg List.length hy'
          rw [List.length_append] at hlen
          obtain ⟨ws₁, v, ws₂, rfl, hws₂, hshort, hv⟩ := ih y'.length (by omega) hline' hy hws' rfl
          refine ⟨w :: ws₁, v, ws₂, rfl, hws₂, fun u hu => ?_, hv⟩
          have hpos : 0 < y'.length := List.length_pos_iff.mpr fun hnil => by
            rw [hnil] at hy
            cases hy
          rcases List.mem_cons.mp hu with rfl | hu
          · omega
          · have := hshort u hu
            omega

end Splitter

/-! ### Lines without quotes and escapes -/

/-- Only the letters are escapes. -/
def IsLetter (e : Text) : Prop := ∃ c ∈ escapeLetters, e = [c]

/-- No quote, and no backslash before a letter. -/
def calm : Text → Bool
  | [] => true
  | '\\' :: c :: t => decide (c ∉ escapeLetters) && calm t
  | c :: t => !isQuote c && calm t

/-- The word that the text is in, and the words after it, between the blanks. -/
def wordsFrom : Text → Text × List Text
  | [] => ([], [])
  | '\\' :: c :: t => ('\\' :: c :: (wordsFrom t).1, (wordsFrom t).2)
  | c :: t =>
    let (w, ws) := wordsFrom t
    if isBlank c then ([], if w = [] then ws else w :: ws) else (c :: w, ws)

/-- The words between the blanks. -/
def blankWords (t : Text) : List Text :=
  if (wordsFrom t).1 = [] then (wordsFrom t).2 else (wordsFrom t).1 :: (wordsFrom t).2

/-- A splitter that refuses every line with a quote or an escape. -/
def splitBare (t : Text) : Option (List Text) := if calm t then some (blankWords t) else none

theorem knows_isLetter : Knows IsLetter where
  letter := fun c hc => ⟨c, hc, rfl⟩
  escape := by
    rintro e ⟨c, hc, rfl⟩
    exact Escape.letter hc

theorem calm_cons {c : Char} (hc : c ≠ '\\') (t : Text) :
    calm (c :: t) = (!isQuote c && calm t) := by
  rw [calm]
  exact fun c' t' h _ => hc h

theorem wordsFrom_cons {c : Char} (hc : c ≠ '\\') (t : Text) : wordsFrom (c :: t) =
    if isBlank c then ([], blankWords t) else (c :: (wordsFrom t).1, (wordsFrom t).2) := by
  rw [wordsFrom]
  · rfl
  · exact fun c' t' h _ => hc h

theorem blankWords_cons {c : Char} (hc : isBlank c = true) (t : Text) :
    blankWords (c :: t) = blankWords t := by
  rw [blankWords, wordsFrom_cons (ne_backslash_of_isBlank hc), if_pos hc, if_pos rfl]

theorem splitBare_cons {c : Char} (hc : isBlank c = true) (t : Text) :
    splitBare (c :: t) = splitBare t := by
  have hquote : isQuote c = false := by
    by_contra hquote
    rw [isBlank_of_isQuote (Bool.eq_true_of_not_eq_false hquote)] at hc
    cases hc
  rw [splitBare, calm_cons (ne_backslash_of_isBlank hc), hquote, blankWords_cons hc]
  rfl

theorem splitBare_eq_some_iff {t : Text} {ws : List Text} :
    splitBare t = some ws ↔ calm t = true ∧ blankWords t = ws := by
  unfold splitBare
  split_ifs with h
  · simp [h]
  · simp [h]

theorem wordsFrom_of_ended {t : Text} (ht : Ended t) : (wordsFrom t).1 = [] := by
  cases t with
  | nil => rfl
  | cons c t =>
    rw [ended_cons_iff] at ht
    rw [wordsFrom_cons (ne_backslash_of_isBlank ht), if_pos ht]

theorem not_letter_of_pair {c : Char} {t : Text} (h : ∀ e, IsLetter e → ¬ e <+: c :: t) :
    c ∉ escapeLetters := fun hc => h [c] ⟨c, hc, rfl⟩ ⟨t, rfl⟩

theorem Stands.calm_append {w : Text} (hw : Stands IsLetter w) (t : Text) :
    calm (w ++ t) = calm t := by
  induction hw with
  | nil => rfl
  | plain hc h ih =>
    obtain ⟨-, hquote, hne⟩ := isPlain_iff.mp hc
    rw [List.cons_append, calm_cons hne, hquote, ih]
    rfl
  | pair hc hno h ih =>
    rw [List.cons_append, List.cons_append, calm, ih]
    simp [not_letter_of_pair hno]

theorem Stands.wordsFrom_append {w : Text} (hw : Stands IsLetter w) (t : Text) :
    wordsFrom (w ++ t) = (w ++ (wordsFrom t).1, (wordsFrom t).2) := by
  induction hw with
  | nil => rfl
  | plain hc h ih =>
    obtain ⟨hblank, -, hne⟩ := isPlain_iff.mp hc
    rw [List.cons_append, wordsFrom_cons hne, ih, if_neg (by simp [hblank])]
    rfl
  | pair hc hno h ih =>
    rw [List.cons_append, List.cons_append, wordsFrom, ih]
    rfl

/-- The first word goes up to the first blank. -/
theorem reads_wordsFrom {t : Text} (hcalm : calm t = true) (hline : Line t) :
    ∃ rest, t = (wordsFrom t).1 ++ rest ∧ Ended rest ∧ (wordsFrom t).2 = blankWords rest ∧
      calm rest = true ∧ Reads IsLetter none (wordsFrom t).1 (wordsFrom t).1 none := by
  induction t using wordsFrom.induct with
  | case1 => exact ⟨[], rfl, ended_nil, rfl, rfl, .nil⟩
  | case2 c t ih =>
    rw [calm, Bool.and_eq_true, decide_eq_true_eq] at hcalm
    obtain ⟨hc, hcalm⟩ := hcalm
    have hline' : Line t := Line.of_append (s := ['\\', c]) hline rfl
    obtain ⟨rest, heq, hended, hws, hrest, hread⟩ := ih hcalm hline'
    rw [wordsFrom]
    refine ⟨rest, by rw [List.cons_append, List.cons_append, ← heq], hended, hws, hrest,
      .pair ?_ hread⟩
    rintro e ⟨d, hd, rfl⟩ hpre
    obtain ⟨rfl, -⟩ := List.cons_prefix_cons.mp hpre
    exact hc hd
  | case3 c t _ _ _ _ hc ih =>
    rw [wordsFrom_cons (ne_backslash_of_isBlank hc), if_pos hc]
    exact ⟨c :: t, rfl, ended_cons_iff.mpr hc, (blankWords_cons hc t).symm, hcalm, .nil⟩
  | case4 c t hpair _ _ _ hc ih =>
    have hne : c ≠ '\\' := by
      rintro rfl
      cases t with
      | nil => cases hline.2
      | cons c' t => exact hpair c' t rfl rfl
    rw [calm_cons hne, Bool.and_eq_true, Bool.not_eq_true'] at hcalm
    obtain ⟨rest, heq, hended, hws, hrest, hread⟩ := ih hcalm.2 (hline.tail hne)
    rw [wordsFrom_cons hne, if_neg hc]
    have hplain : isPlain c = true := isPlain_iff.mpr ⟨by simpa using hc, hcalm.1, hne⟩
    exact ⟨rest, by rw [List.cons_append, ← heq], hended, hws, hrest, .plain hplain hread⟩

theorem splitter_splitBare : Splitter IsLetter splitBare where
  knows := knows_isLetter
  nil := rfl
  blank := fun {c t} hc => splitBare_cons hc t
  stands := by
    intro w t hne hw ht
    have hfirst := wordsFrom_of_ended ht
    have hwords : blankWords (w ++ t) = w :: blankWords t := by
      rw [blankWords, hw.wordsFrom_append, hfirst, List.append_nil, if_neg hne, blankWords, hfirst,
        if_pos rfl]
    rw [splitBare, splitBare, hw.calm_append, hwords]
    split_ifs
    · rfl
    · rfl
  item := by
    intro c t ws hline hc h
    obtain ⟨hcalm, rfl⟩ := splitBare_eq_some_iff.mp h
    obtain ⟨rest, heq, hended, hws, hrest, hread⟩ := reads_wordsFrom hcalm hline
    have hne : (wordsFrom (c :: t)).1 ≠ [] := by
      intro hnil
      rw [hnil, List.nil_append] at heq
      rw [← heq, ended_cons_iff, hc] at hended
      cases hended
    refine ⟨_, rest, _, _, heq, hne, hended, ?_, splitBare_eq_some_iff.mpr ⟨hrest, rfl⟩, hread⟩
    rw [blankWords, if_neg hne, hws]

end Words
