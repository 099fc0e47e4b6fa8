import Mathlib.Data.List.Sort
import Mathlib.Data.Prod.Lex
import Mathlib.Tactic

/-!
# The head of a stably sorted list

A stable sort orders a list by a key, and entries of one key by their places. The rank
of an entry is the number of entries before it, so the first `k` of the sorted list are
the entries of rank below `k`. They are the first `k` in some other order exactly when
no entry of rank below `k` precedes one that the other order puts first.
-/
namespace Ranking

variable {α β ι : Type*}

/-- No list of distinct entries has two of them in both orders. -/
theorem not_sublist_swap {l : List α} (hnd : l.Nodup) {a b : α} (hab : [a, b].Sublist l) :
    ¬ [b, a].Sublist l := by
  intro hba
  induction l with
  | nil => cases hab
  | cons c l ih =>
    obtain ⟨hc, hnd⟩ := List.nodup_cons.mp hnd
    cases hab with
    | cons _ hab =>
      cases hba with
      | cons _ hba => exact ih hnd hab hba
      | cons_cons _ _ => exact hc (hab.subset (by simp))
    | cons_cons _ hb =>
      cases hba with
      | cons _ hba => exact hc (hba.subset (by simp))
      | cons_cons _ _ => exact hc (hb.subset (by simp))

theorem sublist_or_swap {l : List α} {a b : α} (ha : a ∈ l) (hb : b ∈ l) (hne : a ≠ b) :
    [a, b].Sublist l ∨ [b, a].Sublist l := by
  obtain ⟨front, back, rfl⟩ := List.append_of_mem ha
  rcases List.mem_append.mp hb with hb | hb
  · exact Or.inr ((List.singleton_sublist.mpr hb).append (List.singleton_sublist.mpr (by simp)))
  · have hb' := (List.mem_cons.mp hb).resolve_left hne.symm
    exact Or.inl ((List.singleton_sublist.mpr hb').cons_cons a |>.trans
      (List.sublist_append_right front _))

/-- A relation holds pairwise if each entry has it with all behind it. -/
theorem pairwise_of_splits {R : α → α → Prop} {l : List α}
    (h : ∀ front a back, l = front ++ a :: back → ∀ b ∈ back, R a b) : l.Pairwise R := by
  induction l with
  | nil => exact List.Pairwise.nil
  | cons c l ih =>
    refine List.pairwise_cons.mpr ⟨h [] c l rfl, ih fun front a back heq => ?_⟩
    exact h (c :: front) a back (by rw [heq, List.cons_append])

section Order

variable [LinearOrder ι] {key : α → ι} {l s : List α} {a b : α}

/-- First by key, then by place. -/
def Precedes (key : α → ι) (l : List α) (a b : α) : Prop :=
  key a < key b ∨ (key a = key b ∧ [a, b].Sublist l)

instance [DecidableEq α] : Decidable (Precedes key l a b) :=
  inferInstanceAs (Decidable (_ ∨ (_ ∧ _)))

theorem Precedes.asymm (h : Precedes key l a b) (hnd : l.Nodup) : ¬ Precedes key l b a := by
  intro h'
  rcases h with hlt | ⟨heq, hab⟩
  · rcases h' with hlt' | ⟨heq', -⟩
    · exact lt_asymm hlt hlt'
    · exact hlt.ne' heq'
  · rcases h' with hlt' | ⟨-, hba⟩
    · exact hlt'.ne' heq
    · exact not_sublist_swap hnd hab hba

/-- The sort by a key is stable. -/
theorem pairwise_precedes_mergeSort (key : α → ι) (hnd : l.Nodup) :
    (l.mergeSort fun a b => decide (key a ≤ key b)).Pairwise (Precedes key l) := by
  set le : α → α → Bool := fun a b => decide (key a ≤ key b)
  have htrans : ∀ a b c, le a b = true → le b c = true → le a c = true := by
    intro a b c hab hbc
    exact decide_eq_true ((of_decide_eq_true hab).trans (of_decide_eq_true hbc))
  have htotal : ∀ a b, (le a b || le b a) = true := by
    intro a b
    rw [Bool.or_eq_true]
    exact (le_total (key a) (key b)).imp decide_eq_true decide_eq_true
  have hsorted := List.pairwise_mergeSort htrans htotal l
  have hnds : (l.mergeSort le).Nodup := (List.mergeSort_perm l le).nodup_iff.mpr hnd
  rw [List.pairwise_iff_forall_sublist] at hsorted ⊢
  intro a b hab
  rcases (of_decide_eq_true (hsorted hab)).lt_or_eq with hlt | heq
  · exact Or.inl hlt
  · refine Or.inr ⟨heq, ?_⟩
    have hne : a ≠ b := (List.pairwise_iff_forall_sublist.mp hnds) hab
    have ha : a ∈ l := List.mem_mergeSort.mp (hab.subset (by simp))
    have hb : b ∈ l := List.mem_mergeSort.mp (hab.subset (by simp))
    refine (sublist_or_swap ha hb hne).resolve_right fun hba => ?_
    exact not_sublist_swap hnds hab
      (List.pair_sublist_mergeSort htrans htotal (decide_eq_true heq.ge) hba)

/-- How many entries come first. -/
def rank [DecidableEq α] (key : α → ι) (l : List α) (a : α) : ℕ :=
  l.countP fun b => decide (Precedes key l b a)

theorem rank_eq_length [DecidableEq α] (hnd : l.Nodup) (hperm : s.Perm l)
    (hs : s.Pairwise (Precedes key l)) {front back : List α} (heq : s = front ++ a :: back) :
    rank key l a = front.length := by
  subst heq
  obtain ⟨-, htail, hcross⟩ := List.pairwise_append.mp hs
  have hback := (List.pairwise_cons.mp htail).1
  have hself : ¬ Precedes key l a a := fun h => h.asymm hnd h
  have hfront : front.countP (fun b => decide (Precedes key l b a)) = front.length :=
    List.countP_eq_length.mpr fun b hb => decide_eq_true (hcross b hb a (by simp))
  have hrest : (a :: back).countP (fun b => decide (Precedes key l b a)) = 0 := by
    refine List.countP_eq_zero.mpr fun b hb hp => ?_
    rcases List.mem_cons.mp hb with rfl | hb
    · exact hself (of_decide_eq_true hp)
    · exact (hback b hb).asymm hnd (of_decide_eq_true hp)
  rw [rank, ← hperm.countP_eq, List.countP_append, hfront, hrest, Nat.add_zero]

end Order

/-! ### The first entries in another order -/

/-- A strict order in which one of two incomparable entries may come first. -/
structure Weak (lt : α → α → Prop) : Prop where
  asymm : ∀ a b, lt a b → ¬ lt b a
  trans : ∀ a b c, ¬ lt b a → ¬ lt c b → ¬ lt c a

theorem Weak.sorted {lt : α → α → Prop} (h : Weak lt) (l : List α) :
    ∃ s : List α, s.Perm l ∧ s.Pairwise fun a b => ¬ lt b a := by
  classical
  let le : α → α → Bool := fun a b => decide (¬ lt b a)
  have htrans : ∀ a b c, le a b = true → le b c = true → le a c = true := by
    intro a b c hab hbc
    exact decide_eq_true (h.trans a b c (of_decide_eq_true hab) (of_decide_eq_true hbc))
  have htotal : ∀ a b, (le a b || le b a) = true := by
    intro a b
    rw [Bool.or_eq_true]
    by_cases hlt : lt b a
    · exact Or.inr (decide_eq_true (h.asymm b a hlt))
    · exact Or.inl (decide_eq_true hlt)
  have hsorted := List.pairwise_mergeSort htrans htotal l
  exact ⟨_, List.mergeSort_perm l _, hsorted.imp of_decide_eq_true⟩

/-- Of a list that is sorted by the look of its entries, no entry of the first `k` stands
before one that the order puts first. -/
theorem not_lt_of_sorted_take {lt : α → α → Prop} {f : α → β}
    (hf : ∀ {a a' b b'}, f a = f a' → f b = f b' → lt a b → lt a' b') {s front back : List α}
    {a b : α} {k : ℕ} (hperm : s.Perm (front ++ a :: back)) (hs : s.Pairwise fun a b => ¬ lt b a)
    (htake : ((front ++ a :: back).take k).map f = (s.take k).map f) (hlen : front.length < k)
    (hb : b ∈ back) : ¬ lt b a := by
  intro hlt
  -- both lists begin with what looks like `front` and `a`
  have hpre : (s.take (front.length + 1)).map f = front.map f ++ [f a] := by
    have hle : min (front.length + 1) k = front.length + 1 := by omega
    rw [← hle, ← List.take_take, List.map_take, ← htake, ← List.map_take, List.take_take, hle,
      List.take_append, List.take_of_length_le (by omega)]
    simp
  have hsplit : s.map f = (front.map f ++ [f a]) ++ (s.drop (front.length + 1)).map f := by
    rw [← hpre, ← List.map_append, List.take_append_drop]
  have hrest : ((s.drop (front.length + 1)).map f).Perm (back.map f) := by
    have hmap : (s.map f).Perm ((front.map f ++ [f a]) ++ back.map f) := by
      simpa using hperm.map f
    rw [hsplit] at hmap
    exact (List.perm_append_left_iff _).mp hmap
  have ha : f a ∈ (s.take (front.length + 1)).map f := by rw [hpre]; simp
  obtain ⟨a', ha', hfa⟩ := List.mem_map.mp ha
  obtain ⟨b', hb', hfb⟩ := List.mem_map.mp (hrest.mem_iff.mpr (List.mem_map_of_mem hb))
  rw [← List.take_append_drop (front.length + 1) s] at hs
  exact (List.pairwise_append.mp hs).2.2 a' ha' b' hb' (hf hfb.symm hfa.symm hlt)

/-- If none of the first `k` stands before one that the order puts first, sorting what is
behind them leaves them where they are. -/
theorem exists_sorted_take_eq {lt : α → α → Prop} (h : Weak lt) {c : List α} {k : ℕ}
    (hc : ∀ front a back, c = front ++ a :: back → front.length < k → ∀ b ∈ back, ¬ lt b a) :
    ∃ s : List α, s.Perm c ∧ (s.Pairwise fun a b => ¬ lt b a) ∧ c.take k = s.take k := by
  obtain ⟨s, hperm, hs⟩ := h.sorted (c.drop k)
  have hhead : ∀ front a back, c.take k = front ++ a :: back → ∀ b ∈ back ++ c.drop k,
      ¬ lt b a := by
    intro front a back heq b hb
    have hlen := congrArg List.length heq
    rw [List.length_take, List.length_append, List.length_cons] at hlen
    refine hc front a (back ++ c.drop k) ?_ (by omega) b hb
    rw [← List.cons_append, ← List.append_assoc, ← heq, List.take_append_drop]
  refine ⟨c.take k ++ s, ?_, List.pairwise_append.mpr ⟨?_, hs, ?_⟩, ?_⟩
  · exact (hperm.append_left _).trans (by rw [List.take_append_drop])
  · exact pairwise_of_splits fun front a back heq b hb =>
      hhead front a back heq b (List.mem_append_left _ hb)
  · intro a ha b hb
    obtain ⟨front, back, heq⟩ := List.append_of_mem ha
    exact hhead front a back heq b (List.mem_append_right _ (hperm.mem_iff.mp hb))
  · rcases le_total k c.length with hk | hk
    · rw [List.take_left' (by rw [List.length_take, min_eq_left hk])]
    · rw [List.drop_eq_nil_of_le hk] at hperm
      rw [hperm.eq_nil, List.append_nil, List.take_take, min_self]

/-- The first `k` of a list look like the first `k` in an order exactly when none of
them stands before one that the order puts first. -/
theorem exists_sorted_take_iff {lt : α → α → Prop} (h : Weak lt) {f : α → β}
    (hf : ∀ {a a' b b'}, f a = f a' → f b = f b' → lt a b → lt a' b') (c : List α) (k : ℕ) :
    (∃ s : List α, s.Perm c ∧ (s.Pairwise fun a b => ¬ lt b a) ∧
        (c.take k).map f = (s.take k).map f) ↔
      ∀ front a back, c = front ++ a :: back → front.length < k → ∀ b ∈ back, ¬ lt b a := by
  constructor
  · rintro ⟨s, hperm, hs, htake⟩ front a back rfl hlen b hb
    exact not_lt_of_sorted_take hf hperm hs htake hlen hb
  · intro hc
    obtain ⟨s, hperm, hs, htake⟩ := exists_sorted_take_eq h hc
    exact ⟨s, hperm, hs, by rw [htake]⟩

/-- The same for a list sorted stably by a key, in terms of the list that was sorted. -/
theorem exists_sorted_take_iff_rank [DecidableEq α] [LinearOrder ι] {key : α → ι}
    {lt : α → α → Prop} (h : Weak lt) {f : α → β}
    (hf : ∀ {a a' b b'}, f a = f a' → f b = f b' → lt a b → lt a' b') {l c : List α}
    (hnd : l.Nodup) (hperm : c.Perm l) (hc : c.Pairwise (Precedes key l)) (k : ℕ) :
    (∃ s : List α, s.Perm l ∧ (s.Pairwise fun a b => ¬ lt b a) ∧
        (c.take k).map f = (s.take k).map f) ↔
      ∀ a ∈ l, ∀ b ∈ l, Precedes key l a b → rank key l a < k → ¬ lt b a := by
  have hsame : ∀ s : List α, s.Perm l ↔ s.Perm c := fun s =>
    ⟨fun hs => hs.trans hperm.symm, fun hs => hs.trans hperm⟩
  simp only [hsame]
  rw [exists_sorted_take_iff h hf]
  constructor
  · intro hpos a ha b hb hab hrank
    obtain ⟨front, back, rfl⟩ := List.append_of_mem (hperm.mem_iff.mpr ha)
    rw [rank_eq_length hnd hperm hc rfl] at hrank
    refine hpos front a back rfl hrank b ?_
    rcases List.mem_append.mp (hperm.mem_iff.mpr hb) with hfront | hrest
    · exact absurd ((List.pairwise_append.mp hc).2.2 b hfront a (by simp)) (hab.asymm hnd)
    · refine (List.mem_cons.mp hrest).resolve_left ?_
      rintro rfl
      exact hab.asymm hnd hab
  · rintro hrank front a back rfl hlen b hb
    refine hrank a (hperm.mem_iff.mp (by simp)) b (hperm.mem_iff.mp (by simp [hb])) ?_ ?_
    · exact (List.pairwise_cons.mp (List.pairwise_append.mp hc).2.1).1 b hb
    · rwa [rank_eq_length hnd hperm hc rfl]

end Ranking
