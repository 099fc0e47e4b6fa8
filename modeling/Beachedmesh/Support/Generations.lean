import Mathlib.Algebra.BigOperators.Group.Finset.Basic
import Mathlib.Algebra.Order.BigOperators.Group.Finset
import Mathlib.Data.Finset.Card
import Mathlib.Data.Set.Card
import Mathlib.Tactic

/-!
# Generations of a forest

Where a member of the `d`-th generation has at most `m d` children in the next one, the
generations grow no faster than the products of these bounds, and a forest that dies out
after some generation is as large as their sum at most.
-/
namespace Generations
open Finset

variable {α κ : Type*} [DecidableEq α] {L : ℕ → Finset α} {parent : α → Option α} {m : ℕ → ℕ}

/-- The `d`-th generation, given that everybody in one has a parent in the one before. -/
theorem card_le_prod (hparent : ∀ d, ∀ i ∈ L (d + 1), ∃ j ∈ L d, parent i = some j)
    (hm : ∀ d, ∀ j ∈ L d, ((L (d + 1)).filter fun i => parent i = some j).card ≤ m d) (d : ℕ) :
    (L d).card ≤ (L 0).card * ∏ k ∈ range d, m k := by
  induction d with
  | zero => simp
  | succ d ih =>
    have hsub : L (d + 1) ⊆
        (L d).biUnion fun j => (L (d + 1)).filter fun i => parent i = some j := by
      intro i hi
      obtain ⟨j, hj, hij⟩ := hparent d i hi
      exact mem_biUnion.mpr ⟨j, hj, mem_filter.mpr ⟨hi, hij⟩⟩
    calc (L (d + 1)).card
        ≤ ((L d).biUnion fun j => (L (d + 1)).filter fun i => parent i = some j).card :=
          card_le_card hsub
      _ ≤ (L d).card * m d := card_biUnion_le_card_mul _ _ _ (hm d)
      _ ≤ ((L 0).card * ∏ k ∈ range d, m k) * m d := Nat.mul_le_mul_right _ ih
      _ = (L 0).card * ∏ k ∈ range (d + 1), m k := by rw [prod_range_succ, mul_assoc]

/-- Everything in the generations up to the `h`-th. -/
theorem ncard_le_sum {s : Set α} {h : ℕ} (hs : ∀ i ∈ s, ∃ d ≤ h, i ∈ L d)
    (hcard : ∀ d, (L d).card ≤ m d) : s.ncard ≤ ∑ d ∈ range (h + 1), m d := by
  have hsub : s ⊆ ((range (h + 1)).biUnion L : Finset α) := by
    intro i hi
    obtain ⟨d, hd, hmem⟩ := hs i hi
    exact mem_coe.mpr (mem_biUnion.mpr ⟨d, mem_range.mpr (Nat.lt_succ_of_le hd), hmem⟩)
  calc s.ncard ≤ (((range (h + 1)).biUnion L : Finset α) : Set α).ncard :=
        Set.ncard_le_ncard hsub (finite_toSet _)
    _ = ((range (h + 1)).biUnion L).card := Set.ncard_coe_finset _
    _ ≤ ∑ d ∈ range (h + 1), (L d).card := card_biUnion_le
    _ ≤ ∑ d ∈ range (h + 1), m d := sum_le_sum fun d _ => hcard d

/-- One bound for the children of the root and one for those of the others. -/
theorem sum_prod_eq (a b h : ℕ) :
    ∑ d ∈ range (h + 1), ∏ k ∈ range d, (if k = 0 then a else b) =
      1 + a * ∑ d ∈ range h, b ^ d := by
  rw [sum_range_succ', prod_range_zero, add_comm, mul_sum]
  refine congrArg (1 + ·) (sum_congr rfl fun d _ => ?_)
  rw [prod_range_succ', if_pos rfl, mul_comm]
  simp

end Generations
