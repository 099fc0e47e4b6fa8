import Mathlib.Data.List.Dedup
import Mathlib.Data.Finset.Card
import Mathlib.Tactic

/-!
# Least-recently-used caches

A cache is the list of its keys, the one used longest ago first. A use moves its key
to the end and drops what exceeds the capacity from the front; a key may also be
dropped from outside. Along any history the cache is in the order of last use, what a
use evicts was used before all that stays, and a key stays until as many others are
used as the cache has room for.
-/
namespace Lru

variable {κ : Type*}

/-- What happens to a key. -/
inductive Access (κ : Type*) where
  | use (k : κ)
  | drop (k : κ)
  deriving DecidableEq

def Access.used? : Access κ → Option κ
  | .use k => some k
  | .drop _ => none

/-- The keys used, in order, with repetitions. -/
def uses (h : List (Access κ)) : List κ := h.filterMap Access.used?

@[simp] theorem uses_append (h h' : List (Access κ)) : uses (h ++ h') = uses h ++ uses h' :=
  List.filterMap_append

@[simp] theorem uses_use (k : κ) (h : List (Access κ)) : uses (.use k :: h) = k :: uses h := rfl

@[simp] theorem uses_drop (k : κ) (h : List (Access κ)) : uses (.drop k :: h) = uses h := rfl

@[simp] theorem uses_nil : uses ([] : List (Access κ)) = [] := rfl

variable [DecidableEq κ]

/-- The keys used, each at the place of its last use. -/
def recency (h : List (Access κ)) : List κ := (uses h).dedup

/-- Move the key to the end, and drop what does not fit from the front. -/
def touch (cap : ℕ) (ks : List κ) (k : κ) : List κ :=
  let moved := ks.filter (fun j => decide (j ≠ k)) ++ [k]
  moved.drop (moved.length - cap)

def access (cap : ℕ) (ks : List κ) : Access κ → List κ
  | .use k => touch cap ks k
  | .drop k => ks.filter fun j => decide (j ≠ k)

/-- The cache after a history, from the empty one. -/
def run (cap : ℕ) (h : List (Access κ)) : List κ := h.foldl (access cap) []

variable {cap : ℕ} {h h' : List (Access κ)} {ks : List κ} {k x y z : κ}

theorem run_append (cap : ℕ) (h h' : List (Access κ)) :
    run cap (h ++ h') = h'.foldl (access cap) (run cap h) := List.foldl_append

theorem run_concat (cap : ℕ) (h : List (Access κ)) (a : Access κ) :
    run cap (h ++ [a]) = access cap (run cap h) a := run_append cap h [a]

/-- Removals only. -/
theorem foldl_drop (cap : ℕ) (ks dead : List κ) :
    (dead.map .drop).foldl (access cap) ks = ks.filter fun j => decide (j ∉ dead) := by
  induction dead generalizing ks with
  | nil => simp
  | cons d dead ih =>
    rw [List.map_cons, List.foldl_cons, ih, access, List.filter_filter]
    congr 1
    funext j
    simp [Bool.and_comm]

/-! ### The order of last use -/

/-- A use moves the key to the end of the order. -/
theorem dedup_concat (ks : List κ) (k : κ) :
    (ks ++ [k]).dedup = ks.dedup.filter (fun j => decide (j ≠ k)) ++ [k] := by
  induction ks with
  | nil => simp
  | cons a ks ih =>
    rw [List.cons_append, List.dedup_cons, List.dedup_cons, ih]
    by_cases ha : a ∈ ks
    · simp [ha]
    · by_cases hak : a = k
      · subst hak
        have hmem : a ∈ ks ++ [a] := by simp
        rw [if_pos hmem, if_neg ha, List.filter_cons_of_neg (by simp)]
      · have hmem : a ∉ ks ++ [k] := by simp [ha, hak]
        rw [if_neg hmem, if_neg ha, List.filter_cons_of_pos (by simpa using hak),
          List.cons_append]

theorem recency_use (h : List (Access κ)) (k : κ) :
    recency (h ++ [.use k]) = (recency h).filter (fun j => decide (j ≠ k)) ++ [k] := by
  rw [recency, uses_append, uses_use, uses_nil, dedup_concat]
  rfl

theorem recency_drop (h : List (Access κ)) (k : κ) : recency (h ++ [.drop k]) = recency h := by
  rw [recency, uses_append, uses_drop, uses_nil, List.append_nil]
  rfl

/-- The cache is in the order of last use. -/
theorem run_sublist_recency (cap : ℕ) (h : List (Access κ)) :
    (run cap h).Sublist (recency h) := by
  induction h using List.reverseRecOn with
  | nil => exact List.Sublist.refl _
  | append_singleton h a ih =>
    rw [run_concat]
    cases a with
    | use k =>
      rw [recency_use]
      exact (List.drop_sublist _ _).trans ((ih.filter _).append (List.Sublist.refl [k]))
    | drop k =>
      rw [recency_drop]
      exact List.filter_sublist.trans ih

theorem nodup_run (cap : ℕ) (h : List (Access κ)) : (run cap h).Nodup :=
  (List.nodup_dedup _).sublist (run_sublist_recency cap h)

theorem length_run_le (cap : ℕ) (h : List (Access κ)) : (run cap h).length ≤ cap := by
  induction h using List.reverseRecOn with
  | nil => exact Nat.zero_le cap
  | append_singleton h a ih =>
    rw [run_concat]
    cases a with
    | use k =>
      simp only [access, touch, List.length_drop]
      omega
    | drop k => exact (List.length_filter_le _ _).trans ih

/-- A use while there is room, or of a key that is there, drops nothing. -/
theorem touch_of_le (hle : (ks.filter (fun j => decide (j ≠ k)) ++ [k]).length ≤ cap) :
    touch cap ks k = ks.filter (fun j => decide (j ≠ k)) ++ [k] := by
  rw [touch, Nat.sub_eq_zero_of_le hle, List.drop_zero]

/-! ### Eviction -/

/-- After uses only, what is left is the end of the order of last use. -/
theorem run_uses_eq_drop (cap : ℕ) (h : List (Access κ)) (ks : List κ) :
    ∃ n, run cap (h ++ ks.map .use) = (run cap h ++ ks).dedup.drop n := by
  induction ks using List.reverseRecOn with
  | nil =>
    exact ⟨0, by rw [List.map_nil, List.append_nil, List.append_nil, (nodup_run cap h).dedup,
      List.drop_zero]⟩
  | append_singleton ks k ih =>
    obtain ⟨n, hn⟩ := ih
    rw [List.map_append, List.map_singleton, ← List.append_assoc, run_concat, hn,
      ← List.append_assoc, dedup_concat]
    set order := (run cap h ++ ks).dedup
    -- the keys dropped so far are in front of what the filter keeps of the rest
    have hsplit : order.filter (fun j => decide (j ≠ k)) =
        (order.take n).filter (fun j => decide (j ≠ k)) ++
          (order.drop n).filter (fun j => decide (j ≠ k)) := by
      rw [← List.filter_append, List.take_append_drop]
    refine ⟨((order.take n).filter fun j => decide (j ≠ k)).length +
      (((order.drop n).filter fun j => decide (j ≠ k)).length + 1 - cap), ?_⟩
    rw [hsplit, List.append_assoc, List.drop_length_add_append]
    simp only [access, touch, List.length_append, List.length_singleton]

/-- The keys in the order of last use, from a cache on. -/
theorem dedup_run_sublist (cap : ℕ) (h : List (Access κ)) (ks : List κ) :
    (run cap h ++ ks).dedup.Sublist (recency (h ++ ks.map .use)) := by
  induction ks using List.reverseRecOn with
  | nil =>
    rw [List.map_nil, List.append_nil, List.append_nil, (nodup_run cap h).dedup]
    exact run_sublist_recency cap h
  | append_singleton ks k ih =>
    rw [List.map_append, List.map_singleton, ← List.append_assoc, ← List.append_assoc,
      dedup_concat, recency_use]
    exact (ih.filter _).append (List.Sublist.refl [k])

/-- What uses evict was last used before everything they leave. -/
theorem evicted_first (hy : y ∈ run cap h ∨ y ∈ ks) (hgone : y ∉ run cap (h ++ ks.map .use))
    (hz : z ∈ run cap (h ++ ks.map .use)) : [y, z].Sublist (recency (h ++ ks.map .use)) := by
  obtain ⟨n, hn⟩ := run_uses_eq_drop cap h ks
  rw [hn] at hgone hz
  have hy' : y ∈ (run cap h ++ ks).dedup := List.mem_dedup.mpr (List.mem_append.mpr hy)
  rw [← List.take_append_drop n (run cap h ++ ks).dedup, List.mem_append] at hy'
  have htake := hy'.resolve_right hgone
  have hpair := (List.singleton_sublist.mpr htake).append (List.singleton_sublist.mpr hz)
  rw [List.take_append_drop] at hpair
  exact hpair.trans (dedup_run_sublist cap h ks)

/-! ### Retention -/

section
omit [DecidableEq κ]

/-- Nothing but the keys of `K` is behind `x`. -/
def Behind (ks : List κ) (x : κ) (K : Finset κ) : Prop :=
  ∃ front back, ks = front ++ x :: back ∧ ∀ j ∈ back, j ∈ K

theorem Behind.mono {K L : Finset κ} (hb : Behind ks x K) (hKL : K ⊆ L) : Behind ks x L := by
  obtain ⟨front, back, hks, hback⟩ := hb
  exact ⟨front, back, hks, fun j hj => hKL (hback j hj)⟩

end

theorem Behind.filter {K : Finset κ} (hb : Behind ks x K) (hk : x ≠ k) :
    Behind (ks.filter fun j => decide (j ≠ k)) x K := by
  obtain ⟨front, back, rfl, hback⟩ := hb
  refine ⟨front.filter (fun j => decide (j ≠ k)), back.filter (fun j => decide (j ≠ k)), ?_,
    fun j hj => hback j (List.mem_of_mem_filter hj)⟩
  rw [List.filter_append, List.filter_cons_of_pos (by simpa using hk)]

/-- A key just used has nothing behind it. -/
theorem behind_touch (hcap : 0 < cap) : Behind (touch cap ks x) x ∅ := by
  refine ⟨(ks.filter fun j => decide (j ≠ x)).drop
    ((ks.filter fun j => decide (j ≠ x)).length + 1 - cap), [], ?_, by simp⟩
  rw [touch, List.length_append, List.length_singleton, List.drop_append_of_le_length (by omega)]

/-- Another use puts one key more behind, and evicts only if too many are. -/
theorem Behind.touch {K : Finset κ} (hb : Behind ks x K) (hnd : ks.Nodup) (hk : k ≠ x)
    (hcard : (insert k K).card < cap) : Behind (touch cap ks k) x (insert k K) := by
  obtain ⟨front, back, hks, hback⟩ := hb.filter hk.symm
  have hmem : ∀ j ∈ back ++ [k], j ∈ insert k K := by
    intro j hj
    rcases List.mem_append.mp hj with hj | hj
    · exact Finset.mem_insert_of_mem (hback j hj)
    · rw [List.mem_singleton.mp hj]
      exact Finset.mem_insert_self k K
  have hback_nd : (back ++ [k]).Nodup := by
    have hfilter := hnd.filter fun j => decide (j ≠ k)
    rw [hks, List.nodup_append] at hfilter
    refine List.Nodup.append (List.nodup_cons.mp hfilter.2.1).2 (List.nodup_singleton k) ?_
    rw [List.disjoint_singleton]
    intro hkb
    have hkf : k ∈ ks.filter fun j => decide (j ≠ k) := by rw [hks]; simp [hkb]
    simpa using List.of_mem_filter hkf
  have hlen : (back ++ [k]).length ≤ (insert k K).card := by
    rw [← List.toFinset_card_of_nodup hback_nd]
    exact Finset.card_le_card fun j hj => hmem j (List.mem_toFinset.mp hj)
  rw [List.length_append, List.length_singleton] at hlen
  refine ⟨front.drop ((ks.filter (fun j => decide (j ≠ k)) ++ [k]).length - cap), back ++ [k], ?_,
    hmem⟩
  simp only [Lru.touch, hks, List.length_append, List.length_cons, List.length_nil]
  rw [List.append_assoc, List.cons_append, List.drop_append_of_le_length (by omega)]

/-- A key stays while fewer others are used than there is room for. -/
theorem behind_run (hdrop : .drop x ∉ h') (hfew : ((uses h').toFinset.erase x).card < cap) :
    Behind (run cap (h ++ .use x :: h')) x ((uses h').toFinset.erase x) := by
  induction h' using List.reverseRecOn with
  | nil =>
    rw [run_concat]
    exact behind_touch (Nat.zero_lt_of_lt hfew)
  | append_singleton h' a ih =>
    rw [List.mem_append, not_or, List.mem_singleton] at hdrop
    have hsub : (uses h').toFinset.erase x ⊆ (uses (h' ++ [a])).toFinset.erase x := by
      rw [uses_append]
      refine Finset.erase_subset_erase x fun j hj => ?_
      simp only [List.mem_toFinset, List.mem_append] at hj ⊢
      exact Or.inl hj
    have hbehind := ih hdrop.1 ((Finset.card_le_card hsub).trans_lt hfew)
    rw [← List.cons_append, ← List.append_assoc, run_concat]
    cases a with
    | use k =>
      by_cases hk : k = x
      · subst hk
        exact (behind_touch (Nat.zero_lt_of_lt hfew)).mono (Finset.empty_subset _)
      · have hins : (uses (h' ++ [.use k])).toFinset.erase x =
            insert k ((uses h').toFinset.erase x) := by
          ext j
          simp only [uses_append, uses_use, uses_nil, Finset.mem_erase, List.mem_toFinset,
            List.mem_append, List.mem_singleton, Finset.mem_insert]
          constructor
          · rintro ⟨hjx, hj | hj⟩
            · exact Or.inr ⟨hjx, hj⟩
            · exact Or.inl hj
          · rintro (rfl | ⟨hjx, hj⟩)
            · exact ⟨hk, Or.inr rfl⟩
            · exact ⟨hjx, Or.inl hj⟩
        rw [hins] at hfew ⊢
        exact hbehind.touch (nodup_run cap _) hk hfew
    | drop k =>
      have hk : x ≠ k := fun hxk => hdrop.2 (by rw [hxk])
      exact (hbehind.filter hk).mono hsub

theorem mem_run_of_few_others (hdrop : .drop x ∉ h')
    (hfew : ((uses h').toFinset.erase x).card < cap) : x ∈ run cap (h ++ .use x :: h') := by
  obtain ⟨front, back, heq, -⟩ := behind_run (h := h) hdrop hfew
  rw [heq]
  simp

end Lru
