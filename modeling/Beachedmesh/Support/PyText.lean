import Mathlib.Data.List.Infix
import Mathlib.Data.Finset.Card
import Mathlib.Tactic

/-!
# Texts as Python has them

A text is a list of characters. A file opened for reading yields lines under universal
newlines, and `str(n)` is decimal.
-/
namespace PyText

abbrev Text := List Char

/-! ### Lines -/

/-- What a file opened in text mode yields for `\r\n` and `\r`. -/
def universal : Text → Text
  | '\r' :: '\n' :: cs => '\n' :: universal cs
  | '\r' :: cs => '\n' :: universal cs
  | c :: cs => c :: universal cs
  | [] => []

/-- The lines of a text, each with its newline. -/
def lines : Text → List Text
  | [] => []
  | c :: cs =>
    if c = '\n' then [c] :: lines cs
    else match lines cs with
      | [] => [[c]]
      | l :: ls => (c :: l) :: ls

theorem universal_of_not_mem {t : Text} (h : '\r' ∉ t) : universal t = t := by
  induction t with
  | nil => rfl
  | cons c cs ih =>
    rw [List.mem_cons, not_or] at h
    obtain ⟨hc, hcs⟩ := h
    rw [universal, ih hcs]
    · rintro cs' rfl -
      exact hc rfl
    · rintro rfl
      exact hc rfl

theorem lines_append {l : Text} (h : '\n' ∉ l) (rest : Text) :
    lines (l ++ '\n' :: rest) = (l ++ ['\n']) :: lines rest := by
  induction l with
  | nil => rfl
  | cons c l ih =>
    rw [List.mem_cons, not_or] at h
    obtain ⟨hc, hl⟩ := h
    rw [List.cons_append, lines, if_neg (Ne.symm hc), ih hl]
    rfl

/-- A text that is written ends its first line where it has a newline, or after it. -/
theorem lines_cut (t rest : Text) :
    ∃ ls, lines (t ++ '\n' :: rest) = (t.takeWhile (· != '\n') ++ ['\n']) :: ls := by
  induction t with
  | nil => exact ⟨lines rest, rfl⟩
  | cons c t ih =>
    obtain ⟨ls, hls⟩ := ih
    rw [List.cons_append, lines]
    by_cases hc : c = '\n'
    · rw [if_pos hc, hc, List.takeWhile_cons_of_neg (by simp)]
      exact ⟨_, rfl⟩
    · rw [if_neg hc, hls, List.takeWhile_cons_of_pos (by simpa using hc)]
      exact ⟨ls, rfl⟩

/-- A text written line by line is read line by line. -/
theorem lines_flatMap_append {α : Type*} {f : α → Text} {xs : List α} (h : ∀ x ∈ xs, '\n' ∉ f x)
    (rest : Text) : lines ((xs.flatMap fun x => f x ++ ['\n']) ++ rest) =
      (xs.map fun x => f x ++ ['\n']) ++ lines rest := by
  induction xs with
  | nil => rfl
  | cons x xs ih =>
    rw [List.flatMap_cons, List.append_assoc, List.append_assoc, List.singleton_append,
      lines_append (h x (by simp)), ih fun y hy => h y (List.mem_cons_of_mem x hy), List.map_cons,
      List.cons_append]

theorem lines_flatMap {α : Type*} {f : α → Text} {xs : List α} (h : ∀ x ∈ xs, '\n' ∉ f x) :
    lines (xs.flatMap fun x => f x ++ ['\n']) = xs.map fun x => f x ++ ['\n'] := by
  have happend := lines_flatMap_append h []
  rwa [List.append_nil, lines, List.append_nil] at happend

/-! ### Splitting -/

/-- The text between the first two quotes. -/
theorem splitOn_quoted {sep : Char} {front mid : Text} (hfront : sep ∉ front) (hmid : sep ∉ mid)
    (rest : Text) : ((front ++ sep :: (mid ++ sep :: rest)).splitOn sep)[1]? = some mid := by
  rw [List.splitOn_append_cons_self_of_not_mem hfront,
    List.splitOn_append_cons_self_of_not_mem hmid]
  rfl

/-! ### Numerals -/

/-- `str(n)`. -/
def str (n : ℕ) : Text := Nat.toDigits 10 n

theorem str_injective : Function.Injective str := by
  intro m n h
  have hval := congrArg (Nat.ofDigitChars 10 · 0) h
  simpa only [str, Nat.ofDigitChars_ten_toDigits] using hval

theorem isDigit_of_mem_str {n : ℕ} {c : Char} (h : c ∈ str n) : c.isDigit = true :=
  Nat.isDigit_of_mem_toDigits (by decide) (by decide) h

end PyText
