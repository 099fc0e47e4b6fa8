import Mathlib.Data.List.Basic
import Mathlib.Data.List.Nodup
import Mathlib.Data.Finset.Card
import Mathlib.Tactic

/-!
# Insertion-ordered dictionaries

One list of entries with distinct keys, kept in insertion order. Overwriting a
key keeps its place; deleting and reinserting moves it to the end. On top of the
look-up laws the file develops the recency order: `behind k` lists the keys
inserted after `k`, and `evict` drops the oldest entries beyond a capacity.
-/

/-- Entries in insertion order, with at most one entry per key. -/
structure OrderedDict (κ ν : Type*) where
  entries : List (κ × ν)
  nodup : (entries.map Prod.fst).Nodup
  deriving DecidableEq

namespace OrderedDict

variable {κ ν : Type*}

theorem ext {d d' : OrderedDict κ ν} (h : d.entries = d'.entries) : d = d' := by
  cases d; cases d'; simpa using h

def empty : OrderedDict κ ν := ⟨[], by simp⟩

def keys (d : OrderedDict κ ν) : List κ := d.entries.map Prod.fst

def size (d : OrderedDict κ ν) : ℕ := d.entries.length

@[simp] theorem length_keys (d : OrderedDict κ ν) : d.keys.length = d.size := by
  simp [keys, size]

@[simp] theorem keys_empty : (empty : OrderedDict κ ν).keys = [] := rfl

@[simp] theorem size_empty : (empty : OrderedDict κ ν).size = 0 := rfl

theorem nodup_keys (d : OrderedDict κ ν) : d.keys.Nodup := d.nodup

/-- Keep the entries that satisfy `p`, in their order. -/
def filter (d : OrderedDict κ ν) (p : κ × ν → Bool) : OrderedDict κ ν :=
  ⟨d.entries.filter p, d.nodup.sublist (List.filter_sublist.map Prod.fst)⟩

/-- `while len(d) > capacity: delete the first entry`. -/
def dropOldest (capacity : ℕ) : List (κ × ν) → List (κ × ν)
  | [] => []
  | e :: es => if capacity < es.length + 1 then dropOldest capacity es else e :: es

theorem dropOldest_eq_drop (capacity : ℕ) (es : List (κ × ν)) :
    dropOldest capacity es = es.drop (es.length - capacity) := by
  induction es with
  | nil => simp [dropOldest]
  | cons e es ih =>
    simp only [dropOldest, List.length_cons]
    split_ifs with h
    · rw [ih, show es.length + 1 - capacity = es.length - capacity + 1 by omega,
        List.drop_succ_cons]
    · rw [show es.length + 1 - capacity = 0 by omega, List.drop_zero]

/-- Evict the oldest entries until at most `capacity` are left. -/
def evict (capacity : ℕ) (d : OrderedDict κ ν) : OrderedDict κ ν :=
  ⟨dropOldest capacity d.entries, by
    rw [dropOldest_eq_drop]
    exact d.nodup.sublist ((List.drop_sublist _ _).map Prod.fst)⟩

theorem entries_evict (capacity : ℕ) (d : OrderedDict κ ν) :
    (d.evict capacity).entries = d.entries.drop (d.size - capacity) :=
  dropOldest_eq_drop capacity d.entries

theorem keys_evict (capacity : ℕ) (d : OrderedDict κ ν) :
    (d.evict capacity).keys = d.keys.drop (d.size - capacity) := by
  simp [keys, entries_evict, List.map_drop]

theorem size_evict_le (capacity : ℕ) (d : OrderedDict κ ν) :
    (d.evict capacity).size ≤ capacity := by
  have h : (d.evict capacity).size = d.size - (d.size - capacity) := by
    simp [size, entries_evict]
  omega

theorem evict_of_size_le {capacity : ℕ} {d : OrderedDict κ ν} (h : d.size ≤ capacity) :
    d.evict capacity = d := by
  apply ext
  rw [entries_evict, Nat.sub_eq_zero_of_le h, List.drop_zero]

theorem mem_of_mem_evict {capacity : ℕ} {d : OrderedDict κ ν} {e : κ × ν}
    (h : e ∈ (d.evict capacity).entries) : e ∈ d.entries := by
  rw [entries_evict] at h
  exact List.mem_of_mem_drop h

/-- The key is present, and every key younger than it belongs to `K`. -/
def YoungerIn (d : OrderedDict κ ν) (k : κ) (K : Finset κ) : Prop :=
  ∃ pre post, d.keys = pre ++ k :: post ∧ ∀ j ∈ post, j ∈ K

theorem YoungerIn.mem_keys {d : OrderedDict κ ν} {k : κ} {K : Finset κ}
    (h : d.YoungerIn k K) : k ∈ d.keys := by
  obtain ⟨pre, post, hk, -⟩ := h
  simp [hk]

theorem YoungerIn.mono {d : OrderedDict κ ν} {k : κ} {K L : Finset κ}
    (h : d.YoungerIn k K) (hKL : K ⊆ L) : d.YoungerIn k L := by
  obtain ⟨pre, post, hk, hpost⟩ := h
  exact ⟨pre, post, hk, fun j hj => hKL (hpost j hj)⟩

/-- The youngest key has nothing behind it. -/
theorem youngerIn_of_keys_eq {d : OrderedDict κ ν} {k : κ} {pre : List κ}
    (h : d.keys = pre ++ [k]) : d.YoungerIn k ∅ :=
  ⟨pre, [], h, by simp⟩

variable [DecidableEq κ]

/-- `d.get(k)`. -/
def get? (d : OrderedDict κ ν) (k : κ) : Option ν :=
  (d.entries.find? (fun e => decide (e.1 = k))).map Prod.snd

/-- `del d[k]`, or `d.pop(k, None)`: absent keys are ignored. -/
def erase (d : OrderedDict κ ν) (k : κ) : OrderedDict κ ν :=
  d.filter (fun e => decide (e.1 ≠ k))

/-- `d[k] = v`: an existing key keeps its place, a new one goes to the end. -/
def insert (d : OrderedDict κ ν) (k : κ) (v : ν) : OrderedDict κ ν :=
  if h : k ∈ d.keys then
    ⟨d.entries.map (fun e => if e.1 = k then (k, v) else e), by
      have hk : (d.entries.map (fun e => if e.1 = k then (k, v) else e)).map Prod.fst =
          d.entries.map Prod.fst := by
        rw [List.map_map]
        apply List.map_congr_left
        intro e _
        by_cases he : e.1 = k <;> simp [he]
      rw [hk]
      exact d.nodup⟩
  else
    ⟨d.entries ++ [(k, v)], by
      rw [List.map_append]
      refine List.Nodup.append d.nodup (by simp) ?_
      simpa [List.disjoint_singleton, keys] using h⟩

/-- Delete and reinsert, so that the key ends up last. -/
def reinsert (d : OrderedDict κ ν) (k : κ) (v : ν) : OrderedDict κ ν :=
  (d.erase k).insert k v

/-- `d.move_to_end(k)` on a present key; absent keys are ignored. -/
def moveToEnd (d : OrderedDict κ ν) (k : κ) : OrderedDict κ ν :=
  match d.get? k with
  | some v => d.reinsert k v
  | none => d

/-! ### Look-up -/

theorem get?_eq_some_iff {d : OrderedDict κ ν} {k : κ} {v : ν} :
    d.get? k = some v ↔ (k, v) ∈ d.entries := by
  obtain ⟨es, hnd⟩ := d
  simp only [get?]
  induction es with
  | nil => simp
  | cons e es ih =>
    simp only [List.map_cons, List.nodup_cons] at hnd
    by_cases he : e.1 = k
    · have hnot : (k, v) ∉ es := by
        intro hm
        exact hnd.1 (he ▸ List.mem_map_of_mem hm)
      simp only [List.find?_cons, he, decide_true, Option.map_some, Option.some.injEq,
        List.mem_cons, hnot, or_false]
      constructor
      · rintro rfl; exact Prod.ext he.symm rfl
      · rintro rfl; rfl
    · have hne : (k, v) ≠ e := by rintro rfl; exact he rfl
      simpa [List.find?_cons, he, hne] using ih hnd.2

theorem mem_keys_iff {d : OrderedDict κ ν} {k : κ} : k ∈ d.keys ↔ ∃ v, d.get? k = some v := by
  simp [keys, get?_eq_some_iff]

theorem get?_eq_none_iff {d : OrderedDict κ ν} {k : κ} : d.get? k = none ↔ k ∉ d.keys := by
  rw [mem_keys_iff, Option.eq_none_iff_forall_ne_some]
  simp

@[simp] theorem get?_empty (k : κ) : (empty : OrderedDict κ ν).get? k = none := rfl

theorem get?_filter (d : OrderedDict κ ν) (p : κ × ν → Bool) (k : κ) :
    (d.filter p).get? k = (d.get? k).filter (fun v => p (k, v)) := by
  ext v
  rw [get?_eq_some_iff, Option.filter_eq_some_iff, get?_eq_some_iff]
  simp [filter]

@[simp] theorem get?_erase (d : OrderedDict κ ν) (k j : κ) :
    (d.erase k).get? j = if j = k then none else d.get? j := by
  rw [erase, get?_filter]
  split_ifs with h
  · simp [h]
  · cases d.get? j <;> simp [h]

@[simp] theorem get?_insert (d : OrderedDict κ ν) (k j : κ) (v : ν) :
    (d.insert k v).get? j = if j = k then some v else d.get? j := by
  ext w
  rw [get?_eq_some_iff, insert]
  split_ifs with hk hj hj
  · subst hj
    obtain ⟨u, hu⟩ := mem_keys_iff.mp hk
    have hmem := get?_eq_some_iff.mp hu
    constructor
    · intro h
      obtain ⟨e, -, he⟩ := List.mem_map.mp h
      by_cases hej : e.1 = j
      · rw [if_pos hej] at he; simpa using congrArg Prod.snd he
      · rw [if_neg hej] at he; exact absurd (congrArg Prod.fst he) hej
    · rintro h
      obtain rfl := Option.some.inj h
      exact List.mem_map.mpr ⟨(j, u), hmem, by simp⟩
  · rw [get?_eq_some_iff]
    constructor
    · intro h
      obtain ⟨e, hemem, he⟩ := List.mem_map.mp h
      by_cases hek : e.1 = k
      · rw [if_pos hek] at he; exact absurd (congrArg Prod.fst he).symm hj
      · rw [if_neg hek] at he; exact he ▸ hemem
    · intro h
      exact List.mem_map.mpr ⟨(j, w), h, by simp [hj]⟩
  · subst hj
    have hnot : (j, w) ∉ d.entries := fun hm => hk (List.mem_map_of_mem hm)
    simp [hnot, eq_comm]
  · rw [get?_eq_some_iff]
    simp [hj]

@[simp] theorem get?_reinsert (d : OrderedDict κ ν) (k j : κ) (v : ν) :
    (d.reinsert k v).get? j = if j = k then some v else d.get? j := by
  rw [reinsert, get?_insert, get?_erase]
  split_ifs <;> rfl

@[simp] theorem get?_moveToEnd (d : OrderedDict κ ν) (k j : κ) :
    (d.moveToEnd k).get? j = d.get? j := by
  rw [moveToEnd]
  cases h : d.get? k with
  | none => rfl
  | some v =>
    rw [get?_reinsert]
    split_ifs with hj
    · rw [hj, h]
    · rfl

theorem get?_of_get?_evict {capacity : ℕ} {d : OrderedDict κ ν} {k : κ} {v : ν}
    (h : (d.evict capacity).get? k = some v) : d.get? k = some v :=
  get?_eq_some_iff.mpr (mem_of_mem_evict (get?_eq_some_iff.mp h))

/-- Two dictionaries with the same answers hold the same keys. -/
theorem mem_keys_congr {d d' : OrderedDict κ ν} {k : κ} (h : d.get? k = d'.get? k) :
    k ∈ d.keys ↔ k ∈ d'.keys := by
  rw [mem_keys_iff, mem_keys_iff, h]

/-! ### Keys and their order -/

@[simp] theorem keys_erase (d : OrderedDict κ ν) (k : κ) :
    (d.erase k).keys = d.keys.filter (fun j => decide (j ≠ k)) := by
  simp [erase, filter, keys, List.filter_map, Function.comp_def]

theorem not_mem_keys_erase (d : OrderedDict κ ν) (k : κ) : k ∉ (d.erase k).keys := by
  simp

theorem keys_insert_of_mem {d : OrderedDict κ ν} {k : κ} (v : ν) (h : k ∈ d.keys) :
    (d.insert k v).keys = d.keys := by
  rw [insert, dif_pos h]
  simp only [keys, List.map_map]
  apply List.map_congr_left
  intro e _
  by_cases he : e.1 = k <;> simp [he]

theorem entries_insert_of_not_mem {d : OrderedDict κ ν} {k : κ} (v : ν) (h : k ∉ d.keys) :
    (d.insert k v).entries = d.entries ++ [(k, v)] := by
  rw [insert, dif_neg h]

theorem keys_insert_of_not_mem {d : OrderedDict κ ν} {k : κ} (v : ν) (h : k ∉ d.keys) :
    (d.insert k v).keys = d.keys ++ [k] := by
  simp [keys, entries_insert_of_not_mem v h]

theorem entries_reinsert (d : OrderedDict κ ν) (k : κ) (v : ν) :
    (d.reinsert k v).entries = (d.erase k).entries ++ [(k, v)] :=
  entries_insert_of_not_mem v (not_mem_keys_erase d k)

theorem keys_reinsert (d : OrderedDict κ ν) (k : κ) (v : ν) :
    (d.reinsert k v).keys = d.keys.filter (fun j => decide (j ≠ k)) ++ [k] := by
  rw [reinsert, keys_insert_of_not_mem v (not_mem_keys_erase d k), keys_erase]

/-- A dictionary that holds the last `capacity` of the keys placed in it holds them
with one key more. -/
theorem keys_evict_reinsert {d : OrderedDict κ ν} {capacity : ℕ} {placed : List κ}
    (hd : d.keys = placed.drop (placed.length - capacity)) {k : κ} (h : k ∉ d.keys) (v : ν) :
    ((d.reinsert k v).evict capacity).keys =
      (placed ++ [k]).drop ((placed ++ [k]).length - capacity) := by
  have hkeys : (d.reinsert k v).keys = d.keys ++ [k] := by
    rw [keys_reinsert, List.filter_eq_self.mpr]
    intro j hj
    exact decide_eq_true fun hjk => h (hjk ▸ hj)
  rw [keys_evict, ← length_keys, hkeys, hd,
    ← List.drop_append_of_le_length (Nat.sub_le placed.length capacity), List.drop_drop]
  congr 1
  simp only [List.length_drop, List.length_append, List.length_singleton]
  omega

/-- What is left when the entries of `p` are removed one by one. -/
theorem keys_filter_not (d : OrderedDict κ ν) (p : κ × ν → Bool) :
    (d.filter fun e => ! p e).keys = d.keys.filter fun k => decide (k ∉ (d.filter p).keys) := by
  change (d.entries.filter fun e => ! p e).map Prod.fst = (d.entries.map Prod.fst).filter _
  rw [List.filter_map]
  congr 1
  refine List.filter_congr fun e he => ?_
  have hmem : e.1 ∈ (d.filter p).keys ↔ p e = true := by
    constructor
    · intro hk
      obtain ⟨e', he', hkey⟩ := List.mem_map.mp hk
      obtain ⟨hin, hp⟩ := List.mem_filter.mp he'
      rwa [← List.inj_on_of_nodup_map d.nodup hin he hkey]
    · intro hp
      exact List.mem_map.mpr ⟨e, List.mem_filter.mpr ⟨he, hp⟩, rfl⟩
  simp [hmem]

theorem keys_moveToEnd {d : OrderedDict κ ν} {k : κ} (h : k ∈ d.keys) :
    (d.moveToEnd k).keys = d.keys.filter (fun j => decide (j ≠ k)) ++ [k] := by
  obtain ⟨v, hv⟩ := mem_keys_iff.mp h
  rw [moveToEnd, hv]
  exact keys_reinsert d k v

theorem size_insert_le (d : OrderedDict κ ν) (k : κ) (v : ν) :
    (d.insert k v).size ≤ d.size + 1 := by
  rw [← length_keys, ← length_keys]
  by_cases h : k ∈ d.keys
  · rw [keys_insert_of_mem v h]; omega
  · simp [keys_insert_of_not_mem v h]

theorem size_insert_of_mem {d : OrderedDict κ ν} {k : κ} (v : ν) (h : k ∈ d.keys) :
    (d.insert k v).size = d.size := by
  rw [← length_keys, keys_insert_of_mem v h, length_keys]

theorem size_insert_of_not_mem {d : OrderedDict κ ν} {k : κ} (v : ν) (h : k ∉ d.keys) :
    (d.insert k v).size = d.size + 1 := by
  rw [← length_keys, keys_insert_of_not_mem v h]
  simp

theorem size_erase_add_one {d : OrderedDict κ ν} {k : κ} (h : k ∈ d.keys) :
    (d.erase k).size + 1 = d.size := by
  have hp : d.keys.Perm (k :: d.keys.filter (fun j => decide (j ≠ k))) := by
    have hp := List.perm_cons_erase h
    rw [d.nodup_keys.erase_eq_filter] at hp
    convert hp using 3
    simp [bne, beq_eq_decide]
  rw [← length_keys, ← length_keys, keys_erase, hp.length_eq, List.length_cons]

theorem size_erase_le (d : OrderedDict κ ν) (k : κ) : (d.erase k).size ≤ d.size := by
  rw [← length_keys, ← length_keys, keys_erase]
  exact List.length_filter_le _ _

theorem size_moveToEnd (d : OrderedDict κ ν) (k : κ) : (d.moveToEnd k).size = d.size := by
  by_cases h : k ∈ d.keys
  · rw [← size_erase_add_one h, ← length_keys, keys_moveToEnd h, ← length_keys, keys_erase,
      List.length_append, List.length_singleton]
  · rw [moveToEnd, get?_eq_none_iff.mpr h]

/-! ### Operations that change nothing -/

theorem erase_eq_self_iff {d : OrderedDict κ ν} {k : κ} : d.erase k = d ↔ k ∉ d.keys := by
  constructor
  · intro h hk
    rw [← h] at hk
    exact not_mem_keys_erase d k hk
  · intro h
    apply ext
    refine List.filter_eq_self.mpr fun e he => ?_
    have hne : e.1 ≠ k := fun hek => h (hek ▸ List.mem_map_of_mem he)
    simpa using hne

theorem insert_eq_self_iff {d : OrderedDict κ ν} {k : κ} {v : ν} :
    d.insert k v = d ↔ d.get? k = some v := by
  constructor
  · intro h
    rw [← h, get?_insert, if_pos rfl]
  · intro h
    apply ext
    rw [insert, dif_pos (mem_keys_iff.mpr ⟨v, h⟩)]
    refine (List.map_congr_left fun e he => ?_).trans (List.map_id d.entries)
    split_ifs with hek
    · have hv : d.get? k = some e.2 := get?_eq_some_iff.mpr (hek ▸ he)
      exact Prod.ext hek.symm (Option.some.inj (h.symm.trans hv))
    · rfl

/-- Reinserting keeps the dictionary if the key is the last one, with that value. -/
theorem reinsert_eq_self_iff {d : OrderedDict κ ν} {k : κ} {v : ν} :
    d.reinsert k v = d ↔ d.get? k = some v ∧ d.keys.getLast? = some k := by
  constructor
  · intro h
    refine ⟨by rw [← h, get?_reinsert, if_pos rfl], ?_⟩
    rw [← h, keys_reinsert, List.getLast?_concat]
  · rintro ⟨hv, hlast⟩
    apply ext
    rw [entries_reinsert]
    cases hes : d.entries using List.reverseRecOn with
    | nil => simp [keys, hes] at hlast
    | append_singleton es e =>
      have hek : e.1 = k := by simpa [keys, hes] using hlast
      have hev : d.get? k = some e.2 := get?_eq_some_iff.mpr (by rw [hes, ← hek]; simp)
      obtain rfl : v = e.2 := Option.some.inj (hv.symm.trans hev)
      have hnd := d.nodup
      rw [hes, List.map_append, List.nodup_append] at hnd
      have hpre : es.filter (fun x => decide (x.1 ≠ k)) = es := by
        refine List.filter_eq_self.mpr fun x hx => ?_
        have hne : x.1 ≠ e.1 := hnd.2.2 x.1 (List.mem_map_of_mem hx) e.1 (by simp)
        simpa [hek] using hne
      simp only [erase, filter, hes, List.filter_append, hpre]
      simp [← hek]

/-! ### Writing one key -/

/-- `d[k] = v`, or delete `k`. -/
def put (d : OrderedDict κ ν) (k : κ) : Option ν → OrderedDict κ ν
  | some v => d.insert k v
  | none => d.erase k

@[simp] theorem get?_put (d : OrderedDict κ ν) (k j : κ) (s : Option ν) :
    (d.put k s).get? j = if j = k then s else d.get? j := by
  cases s with
  | some v => exact get?_insert d k j v
  | none => exact get?_erase d k j

theorem put_get? (d : OrderedDict κ ν) (k : κ) : d.put k (d.get? k) = d := by
  cases h : d.get? k with
  | some v => exact insert_eq_self_iff.mpr h
  | none => exact erase_eq_self_iff.mpr (get?_eq_none_iff.mp h)

theorem entries_insert_of_mem {d : OrderedDict κ ν} {k : κ} (v : ν) (h : k ∈ d.keys) :
    (d.insert k v).entries = d.entries.map (fun e => if e.1 = k then (k, v) else e) := by
  rw [insert, dif_pos h]

/-- An entry of a key is the one that a look-up finds. -/
theorem eq_of_mem_entries {d : OrderedDict κ ν} {k : κ} {v : ν} (h : d.get? k = some v)
    {e : κ × ν} (he : e ∈ d.entries) (hk : e.1 = k) : e = (k, v) := by
  have hget : d.get? k = some e.2 := get?_eq_some_iff.mpr (hk ▸ he)
  exact Prod.ext hk (Option.some.inj (hget.symm.trans h))

theorem erase_put_self (d : OrderedDict κ ν) (k : κ) (s : Option ν) :
    (d.put k s).erase k = d.erase k := by
  cases s with
  | none => exact erase_eq_self_iff.mpr (not_mem_keys_erase d k)
  | some v =>
    apply ext
    show (d.insert k v).entries.filter _ = d.entries.filter _
    by_cases h : k ∈ d.keys
    · rw [entries_insert_of_mem v h, List.filter_map]
      refine (List.map_congr_left fun e he => ?_).trans (List.map_id _) |>.trans ?_
      · have hne := (List.mem_filter.mp he).2
        by_cases hk : e.1 = k
        · simp [hk] at hne
        · exact if_neg hk
      · refine List.filter_congr fun e _ => ?_
        by_cases hk : e.1 = k <;> simp [hk]
    · rw [entries_insert_of_not_mem v h, List.filter_append]
      simp

theorem erase_filter (d : OrderedDict κ ν) (k : κ) (p : κ × ν → Bool) :
    (d.filter p).erase k = (d.erase k).filter p := by
  apply ext
  show (d.entries.filter p).filter _ = (d.entries.filter _).filter p
  rw [List.filter_filter, List.filter_filter]
  exact List.filter_congr fun e _ => Bool.and_comm _ _

theorem erase_put_of_ne (d : OrderedDict κ ν) {k j : κ} (hne : j ≠ k) (s : Option ν) :
    (d.put j s).erase k = (d.erase k).put j s := by
  cases s with
  | none => exact erase_filter d k _
  | some v =>
    apply ext
    show (d.insert j v).entries.filter _ = ((d.erase k).insert j v).entries
    by_cases h : j ∈ d.keys
    · have h' : j ∈ (d.erase k).keys := by
        rw [keys_erase]
        exact List.mem_filter.mpr ⟨h, by simpa using hne⟩
      rw [entries_insert_of_mem v h, entries_insert_of_mem v h', List.filter_map]
      refine congrArg _ (List.filter_congr fun e _ => ?_)
      by_cases hj : e.1 = j <;> simp [hj]
    · have h' : j ∉ (d.erase k).keys := by
        rw [keys_erase]
        exact fun hm => h (List.mem_filter.mp hm).1
      rw [entries_insert_of_not_mem v h, entries_insert_of_not_mem v h', List.filter_append]
      simp [erase, filter, hne]

/-- Writing a present key treats every entry on its own. -/
theorem entries_put_of_mem {d : OrderedDict κ ν} {k : κ} (h : k ∈ d.keys) (s : Option ν) :
    (d.put k s).entries =
      d.entries.filterMap (fun e => if e.1 = k then s.map (fun v => (k, v)) else some e) := by
  cases s with
  | none =>
    show d.entries.filter _ = _
    rw [← List.filterMap_eq_filter]
    refine List.filterMap_congr fun e _ => ?_
    by_cases hk : e.1 = k <;> simp [hk]
  | some v =>
    show (d.insert k v).entries = _
    rw [entries_insert_of_mem v h, ← List.filterMap_eq_map]
    refine List.filterMap_congr fun e _ => ?_
    by_cases hk : e.1 = k <;> simp [hk]

/-- Writing a present key and another one can be swapped. -/
theorem put_comm_of_mem {d : OrderedDict κ ν} {k j : κ} (h : k ∈ d.keys) (hne : j ≠ k)
    (r s : Option ν) : (d.put k r).put j s = (d.put j s).put k r := by
  have hj {u : Option ν} : j ∈ (d.put k u).keys ↔ j ∈ d.keys :=
    mem_keys_congr ((get?_put d k j u).trans (if_neg hne))
  have hk {u : Option ν} : k ∈ (d.put j u).keys ↔ k ∈ d.keys :=
    mem_keys_congr ((get?_put d j k u).trans (if_neg hne.symm))
  apply ext
  rw [entries_put_of_mem (hk.mpr h)]
  by_cases hmem : j ∈ d.keys
  · rw [entries_put_of_mem (hj.mpr hmem), entries_put_of_mem h, entries_put_of_mem hmem,
      List.filterMap_filterMap, List.filterMap_filterMap]
    refine List.filterMap_congr fun e _ => ?_
    by_cases hek : e.1 = k
    · have hej : ¬ e.1 = j := fun he => hne (he.symm.trans hek)
      cases r <;> simp [hek, hne.symm]
    · by_cases hej : e.1 = j
      · cases s <;> simp [hej, hne]
      · simp [hek, hej]
  · cases s with
    | none =>
      have hgone {u : OrderedDict κ ν} (hu : j ∉ u.keys) : u.put j none = u :=
        erase_eq_self_iff.mpr hu
      rw [hgone (fun hm => hmem (hj.mp hm)), hgone hmem, entries_put_of_mem h]
    | some v =>
      show ((d.put k r).insert j v).entries = (d.insert j v).entries.filterMap _
      rw [entries_insert_of_not_mem v (fun hm => hmem (hj.mp hm)), entries_insert_of_not_mem v hmem,
        entries_put_of_mem h, List.filterMap_append]
      simp [hne]

/-- A test that does not tell the new value of a key from the old one. -/
theorem filter_put {d : OrderedDict κ ν} {k : κ} {v : ν} (h : d.get? k = some v)
    {s : Option ν} {p : κ × ν → Bool} (hs : ∀ w, s = some w → p (k, w) = p (k, v)) :
    (d.put k s).filter p = if p (k, v) then (d.filter p).put k s else d.filter p := by
  have hmem : k ∈ d.keys := mem_keys_iff.mpr ⟨v, h⟩
  have hkey {e : κ × ν} (he : e ∈ d.entries) (hk : e.1 = k) : p e = p (k, v) := by
    rw [eq_of_mem_entries h he hk]
  cases s with
  | none =>
    split_ifs with hp
    · exact (erase_filter d k p).symm
    · apply ext
      show (d.entries.filter _).filter p = d.entries.filter p
      rw [List.filter_filter]
      refine List.filter_congr fun e he => ?_
      by_cases hk : e.1 = k
      · simp [hk, hkey he hk, hp]
      · simp [hk]
  | some w =>
    apply ext
    show (d.insert k w).entries.filter p = _
    rw [entries_insert_of_mem w hmem, List.filter_map]
    have hcomp : d.entries.filter (p ∘ fun e => if e.1 = k then (k, w) else e) =
        d.entries.filter p := by
      refine List.filter_congr fun e he => ?_
      by_cases hk : e.1 = k
      · simp [hk, hkey he hk, hs w rfl]
      · simp [hk]
    rw [hcomp]
    split_ifs with hp
    · have hmem' : k ∈ (d.filter p).keys :=
        mem_keys_iff.mpr ⟨v, by rw [get?_filter, h]; simp [Option.filter, hp]⟩
      exact (entries_insert_of_mem w hmem').symm
    · refine (List.map_congr_left fun e he => ?_).trans (List.map_id _)
      obtain ⟨hent, hpe⟩ := List.mem_filter.mp he
      refine if_neg fun hk => hp ?_
      rw [← hkey hent hk, hpe]

/-- A reading of the entries that does not tell the new value of a key from the old one. -/
theorem map_insert {α : Type*} {d : OrderedDict κ ν} {k : κ} {v w : ν} (h : d.get? k = some v)
    {f : κ × ν → α} (hf : f (k, w) = f (k, v)) :
    (d.insert k w).entries.map f = d.entries.map f := by
  rw [entries_insert_of_mem w (mem_keys_iff.mpr ⟨v, h⟩), List.map_map]
  refine List.map_congr_left fun e he => ?_
  by_cases hk : e.1 = k
  · rw [eq_of_mem_entries h he hk]
    simp [hf]
  · simp [hk]

/-! ### Recency -/

theorem youngerIn_reinsert (d : OrderedDict κ ν) (k : κ) (v : ν) :
    (d.reinsert k v).YoungerIn k ∅ :=
  youngerIn_of_keys_eq (keys_reinsert d k v)

theorem youngerIn_moveToEnd {d : OrderedDict κ ν} {k : κ} (h : k ∈ d.keys) :
    (d.moveToEnd k).YoungerIn k ∅ :=
  youngerIn_of_keys_eq (keys_moveToEnd h)

theorem YoungerIn.erase {d : OrderedDict κ ν} {k j : κ} {K : Finset κ}
    (h : d.YoungerIn k K) (hj : j ≠ k) : (d.erase j).YoungerIn k K := by
  obtain ⟨pre, post, hk, hpost⟩ := h
  refine ⟨pre.filter (fun i => decide (i ≠ j)), post.filter (fun i => decide (i ≠ j)), ?_, ?_⟩
  · rw [keys_erase, hk, List.filter_append, List.filter_cons_of_pos (by simpa using hj.symm)]
  · intro i hi
    exact hpost i (List.mem_of_mem_filter hi)

theorem YoungerIn.reinsert {d : OrderedDict κ ν} {k j : κ} {K : Finset κ}
    (h : d.YoungerIn k K) (hj : j ≠ k) (v : ν) : (d.reinsert j v).YoungerIn k (K ∪ {j}) := by
  obtain ⟨pre, post, hk, hpost⟩ := h.erase hj
  refine ⟨pre, post ++ [j], ?_, ?_⟩
  · rw [OrderedDict.reinsert, keys_insert_of_not_mem v (not_mem_keys_erase d j), hk]
    simp
  · intro i hi
    rcases List.mem_append.mp hi with hi | hi
    · exact Finset.mem_union_left _ (hpost i hi)
    · exact Finset.mem_union_right _ (by simpa using hi)

theorem YoungerIn.moveToEnd {d : OrderedDict κ ν} {k j : κ} {K : Finset κ}
    (h : d.YoungerIn k K) (hj : j ≠ k) : (d.moveToEnd j).YoungerIn k (K ∪ {j}) := by
  rw [OrderedDict.moveToEnd]
  cases d.get? j with
  | none => exact h.mono Finset.subset_union_left
  | some v => exact h.reinsert hj v

/-- Eviction spares a key with fewer than `capacity` younger ones. -/
theorem YoungerIn.evict {d : OrderedDict κ ν} {k : κ} {K : Finset κ}
    (h : d.YoungerIn k K) {capacity : ℕ} (hK : K.card < capacity) :
    (d.evict capacity).YoungerIn k K := by
  obtain ⟨pre, post, hk, hpost⟩ := h
  have hnd : (pre ++ k :: post).Nodup := hk ▸ d.nodup_keys
  have hpostnd : post.Nodup := (List.nodup_cons.mp (List.nodup_append.mp hnd).2.1).2
  have hlen : post.length ≤ K.card := by
    rw [← List.toFinset_card_of_nodup hpostnd]
    exact Finset.card_le_card (fun j hj => hpost j (List.mem_toFinset.mp hj))
  have hsize : d.size = pre.length + (post.length + 1) := by
    rw [← length_keys, hk]
    simp
  refine ⟨pre.drop (d.size - capacity), post, ?_, hpost⟩
  rw [keys_evict, hk, List.drop_append_of_le_length (by omega)]

end OrderedDict
