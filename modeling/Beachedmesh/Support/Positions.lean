import Mathlib.Data.Finset.Card
import Mathlib.Data.List.Nodup
import Mathlib.Tactic

/-!
# Positions in a list

Where a log holds the entries of one kind. The positions stay as the log grows, and
there are as many of them as such entries. An ordered list against its own cut comes
first.
-/
namespace List

variable {α : Type*}

/-- In a list ordered by `R`, the end stands before the beginning only if one is empty. -/
theorem Pairwise.forall_drop_take_iff {R : α → α → Prop} (hasymm : ∀ a b, R a b → ¬ R b a)
    {l : List α} (hl : l.Pairwise R) (i : ℕ) :
    (∀ x ∈ l.drop i, ∀ y ∈ l.take i, R x y) ↔ l.length ≤ i ∨ i = 0 := by
  constructor
  · intro h
    by_contra hi
    obtain ⟨hlt, hpos⟩ : i < l.length ∧ 0 < i := by omega
    have hx : l[i] ∈ l.drop i := List.mem_drop_iff_getElem.mpr ⟨0, by simpa using hlt, by simp⟩
    have hy : l[0] ∈ l.take i := List.mem_take_iff_getElem.mpr ⟨0, by simp; omega, rfl⟩
    exact hasymm _ _ (h _ hx _ hy) (List.pairwise_iff_getElem.mp hl 0 i (by omega) hlt hpos)
  · rintro (hle | rfl) x hx y hy
    · rw [List.drop_of_length_le hle] at hx
      cases hx
    · rw [List.take_zero] at hy
      cases hy

/-- The positions of the entries that satisfy `p`. -/
def positions (p : α → Bool) (l : List α) : Finset ℕ :=
  (Finset.range l.length).filter fun i => (l[i]?).any p = true

theorem mem_positions {p : α → Bool} {l : List α} {i : ℕ} :
    i ∈ l.positions p ↔ ∃ a, l[i]? = some a ∧ p a = true := by
  rw [positions, Finset.mem_filter, Finset.mem_range, Option.any_eq_true_iff_get]
  constructor
  · rintro ⟨hi, hsome, hp⟩
    exact ⟨_, (Option.some_get hsome).symm, hp⟩
  · rintro ⟨a, ha, hp⟩
    exact ⟨(List.getElem?_eq_some_iff.mp ha).1, by rw [ha]; rfl, by simpa [ha] using hp⟩

/-- Growth changes no position that was there before. -/
theorem mem_positions_append {p : α → Bool} {l l' : List α} {i : ℕ} (hi : i < l.length) :
    i ∈ (l ++ l').positions p ↔ i ∈ l.positions p := by
  rw [mem_positions, mem_positions, List.getElem?_append_left hi]

theorem positions_concat (p : α → Bool) (l : List α) (a : α) :
    (l ++ [a]).positions p =
      if p a then insert l.length (l.positions p) else l.positions p := by
  ext i
  rcases lt_trichotomy i l.length with hi | rfl | hi
  · rw [mem_positions_append hi]
    split_ifs
    · rw [Finset.mem_insert, or_iff_right hi.ne]
    · rfl
  · have hnot : l.length ∉ l.positions p := fun hm => by
      obtain ⟨b, hb, -⟩ := mem_positions.mp hm
      simp at hb
    split_ifs with hp
    · simp [mem_positions, hp]
    · simp [mem_positions, hp]
  · have hnone : (l ++ [a])[i]? = none := List.getElem?_eq_none (by simp; omega)
    have hnot : i ∉ l.positions p := fun hm => by
      obtain ⟨b, hb, -⟩ := mem_positions.mp hm
      have := (List.getElem?_eq_some_iff.mp hb).1
      omega
    rw [mem_positions, hnone]
    split_ifs
    · simp [hnot, hi.ne']
    · simp [hnot]

theorem card_positions (p : α → Bool) (l : List α) : (l.positions p).card = l.countP p := by
  induction l using List.reverseRecOn with
  | nil => rfl
  | append_singleton l a ih =>
    rw [positions_concat, List.countP_append, List.countP_singleton]
    split_ifs with hp
    · rw [Finset.card_insert_of_notMem, ih]
      intro hm
      obtain ⟨b, hb, -⟩ := mem_positions.mp hm
      simp at hb
    · rw [ih, Nat.add_zero]

/-- Of the entries with distinct marks, at most one has the mark `k`. -/
theorem filterMap_eq_of_nodup {β γ : Type*} [DecidableEq β] {f : α → β} {l : List α}
    (h : (l.map f).Nodup) (k : β) (c : γ) :
    l.filterMap (fun x => if f x = k then some c else none) =
      if k ∈ l.map f then [c] else [] := by
  induction l with
  | nil => rfl
  | cons x l ih =>
    rw [List.map_cons, List.nodup_cons] at h
    by_cases hx : f x = k
    · subst hx
      have hrest := ih h.2
      rw [if_neg h.1] at hrest
      simp [hrest]
    · rw [List.filterMap_cons, if_neg hx, ih h.2]
      simp [Ne.symm hx]

end List
