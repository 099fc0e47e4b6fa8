import Mathlib.Data.List.Basic
import Mathlib.Data.List.Infix

/-!
# A line from a stream

A stream hands over its text in pieces of any size; an empty piece is its end, and a call
may fail instead. A reader that stops at the end, or after a piece that ends with the
delimiter, gets the whole line however the stream cuts it, and never more than was sent.
-/
namespace Pieces

variable {α : Type*} [DecidableEq α] {δ : α} {acc line got : List α}
  {reads : List (Option (List α))}

/-- The pieces up to the end, or up to one that ends with the delimiter; `none` where a call
fails, or returns nothing for too long. -/
def collect (δ : α) (acc : List α) : List (Option (List α)) → Option (List α)
  | [] => none
  | none :: _ => none
  | some [] :: _ => some acc
  | some piece :: reads =>
    if piece.getLast? = some δ then some (acc ++ piece) else collect δ (acc ++ piece) reads

/-- What the calls bring. -/
def brought (reads : List (Option (List α))) : List α := reads.flatMap fun r => r.getD []

theorem collect_cons {piece : List α} (hne : piece ≠ []) :
    collect δ acc (some piece :: reads) =
      if piece.getLast? = some δ then some (acc ++ piece)
      else collect δ (acc ++ piece) reads := by
  cases piece with
  | nil => exact absurd rfl hne
  | cons a piece => rfl

/-- The reader never gets more than the stream brings. -/
theorem collect_brought (h : collect δ acc reads = some got) : got <+: acc ++ brought reads := by
  induction reads generalizing acc with
  | nil => cases h
  | cons r reads ih =>
    cases r with
    | none => cases h
    | some piece =>
      by_cases hne : piece = []
      · subst hne
        obtain rfl := Option.some.inj h
        exact List.prefix_append _ _
      · rw [collect_cons hne] at h
        have hbrought : acc ++ brought (some piece :: reads) = acc ++ piece ++ brought reads := by
          simp [brought]
        rw [hbrought]
        split_ifs at h with hlast
        · obtain rfl := Option.some.inj h
          exact List.prefix_append _ _
        · exact ih h

/-- However a line is cut into pieces, the reader gets all of it: no piece but the last one
ends with the delimiter. -/
theorem collect_line (hline : δ ∉ line) {pieces : List (List α)} (hne : ∀ p ∈ pieces, p ≠ [])
    (hpieces : acc ++ pieces.flatten = line ++ [δ]) (hmore : pieces ≠ [])
    (rest : List (Option (List α))) :
    collect δ acc (pieces.map some ++ rest) = some (line ++ [δ]) := by
  induction pieces generalizing acc with
  | nil => exact absurd rfl hmore
  | cons p pieces ih =>
    rw [List.map_cons, List.cons_append, collect_cons (hne p (by simp))]
    rw [List.flatten_cons, ← List.append_assoc] at hpieces
    by_cases hlast : pieces = []
    · subst hlast
      rw [List.flatten_nil, List.append_nil] at hpieces
      have hend : p.getLast? = some δ := by
        have h := congrArg List.getLast? hpieces
        rw [List.getLast?_append, List.getLast?_concat] at h
        cases hp : p.getLast? with
        | none => exact absurd (List.getLast?_eq_none_iff.mp hp) (hne p (by simp))
        | some a =>
          rw [hp, Option.some_or] at h
          exact h
      rw [if_pos hend, hpieces]
    · have hmid : p.getLast? ≠ some δ := by
        intro hp
        -- the delimiter would stand before the end
        obtain ⟨q, rfl⟩ := List.getLast?_eq_some_iff.mp hp
        have htail : pieces.flatten ≠ [] := by
          obtain ⟨r, rest', rfl⟩ := List.exists_cons_of_ne_nil hlast
          simp [hne r (by simp)]
        rw [← List.dropLast_append_getLast htail, ← List.append_assoc] at hpieces
        obtain ⟨hinit, -⟩ := List.append_inj' hpieces rfl
        exact hline (hinit ▸ by simp)
      rw [if_neg hmid]
      exact ih (fun r hr => hne r (List.mem_cons_of_mem p hr)) hpieces hlast

end Pieces
