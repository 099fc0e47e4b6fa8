import Mathlib.Data.List.Basic
import Mathlib.Tactic

/-!
# Reading byte strings as Python does

An index out of range and a field past the end raise; slices never do. A read that stays
within a prefix is not affected by what follows it.
-/
namespace PyBytes

/-- The exceptions of the language that a reader of byte strings meets. -/
inductive PyError where
  | valueError (text : String)
  | indexError
  | structError
  | overflowError
  deriving DecidableEq

/-- The unsigned value of little-endian octets. -/
def leNat : List UInt8 → ℕ
  | [] => 0
  | x :: b => x.toNat + 256 * leNat b

/-- The `k` little-endian octets of `n`, or `none` for the `struct.error` of a wider value. -/
def packLE (k n : ℕ) : Option (List UInt8) :=
  if n < 256 ^ k then some ((List.range k).map fun i => UInt8.ofNat (n / 256 ^ i)) else none

/-- `b[i]` for a position from the start. -/
def index (b : List UInt8) (i : ℕ) : Except PyError UInt8 :=
  match b[i]? with
  | some x => .ok x
  | none => .error .indexError

/-- `struct.unpack_from` of one little-endian unsigned field of `k` octets. -/
def unpackFrom (b : List UInt8) (off k : ℕ) : Except PyError ℕ :=
  if off + k ≤ b.length then .ok (leNat ((b.drop off).take k)) else .error .structError

/-- `struct.unpack_from("<b", b, off)`. -/
def unpackSigned (b : List UInt8) (off : ℕ) : Except PyError Int8 :=
  if off + 1 ≤ b.length then .ok ((b.drop off).headD 0).toInt8 else .error .structError

variable {b rest : List UInt8} {i off k : ℕ}

theorem index_eq_ok (h : i < b.length) : index b i = .ok b[i] := by
  rw [index, List.getElem?_eq_getElem h]

theorem index_eq_ok_iff {x : UInt8} : index b i = .ok x ↔ b[i]? = some x := by
  unfold index
  cases b[i]? <;> simp

theorem unpackFrom_eq_ok (h : off + k ≤ b.length) :
    unpackFrom b off k = .ok (leNat ((b.drop off).take k)) :=
  if_pos h

theorem unpackSigned_eq_ok (h : off + 1 ≤ b.length) :
    unpackSigned b off = .ok ((b.drop off).headD 0).toInt8 :=
  if_pos h

theorem index_append (h : i < b.length) : index (b ++ rest) i = index b i := by
  rw [index, index, List.getElem?_append_left h]

theorem take_drop_append_left (h : off + k ≤ b.length) :
    ((b ++ rest).drop off).take k = (b.drop off).take k := by
  rw [List.drop_append_of_le_length (by omega), List.take_append_of_le_length]
  rw [List.length_drop]
  omega

theorem unpackFrom_append (h : off + k ≤ b.length) :
    unpackFrom (b ++ rest) off k = unpackFrom b off k := by
  rw [unpackFrom_eq_ok h, unpackFrom_eq_ok (by rw [List.length_append]; omega),
    take_drop_append_left h]

theorem unpackSigned_append (h : off + 1 ≤ b.length) :
    unpackSigned (b ++ rest) off = unpackSigned b off := by
  rw [unpackSigned_eq_ok h, unpackSigned_eq_ok (by rw [List.length_append]; omega),
    List.drop_append_of_le_length (by omega)]
  cases hd : b.drop off with
  | nil =>
    have hlen := congrArg List.length hd
    simp at hlen
    omega
  | cons x t => rfl

/-! ### Little-endian fields -/

/-- The `k` little-endian octets of `n`, whose higher ones are dropped. -/
def leBytes (k n : ℕ) : List UInt8 := (List.range k).map fun i => UInt8.ofNat (n / 256 ^ i)

@[simp] theorem length_leBytes (k n : ℕ) : (leBytes k n).length = k := by simp [leBytes]

theorem leBytes_succ (k n : ℕ) : leBytes (k + 1) n = UInt8.ofNat n :: leBytes k (n / 256) := by
  rw [leBytes, List.range_succ_eq_map, List.map_cons, List.map_map, pow_zero, Nat.div_one]
  congr 1
  refine List.map_congr_left fun i _ => ?_
  rw [Function.comp_apply, Nat.succ_eq_add_one, pow_succ', Nat.div_div_eq_div_mul]

theorem leNat_leBytes {k n : ℕ} (h : n < 256 ^ k) : leNat (leBytes k n) = n := by
  induction k generalizing n with
  | zero =>
    obtain rfl : n = 0 := by simpa using h
    rfl
  | succ k ih =>
    rw [leBytes_succ, leNat, ih (Nat.div_lt_of_lt_mul (by rwa [pow_succ'] at h))]
    have hmod : (UInt8.ofNat n).toNat = n % 256 := by simp
    rw [hmod]
    exact Nat.mod_add_div n 256

/-! ### Reading behind a prefix -/

variable {v : List UInt8}

theorem index_at (hv : 0 < v.length) (b rest : List UInt8) :
    index (b ++ v ++ rest) b.length = .ok (v.headD 0) := by
  cases v with
  | nil => cases hv
  | cons x v => simp [index]

theorem unpackFrom_at (hv : k ≤ v.length) (b rest : List UInt8) :
    unpackFrom (b ++ v ++ rest) b.length k = .ok (leNat (v.take k)) := by
  rw [unpackFrom_eq_ok (by simp only [List.length_append]; omega), List.append_assoc,
    List.drop_left, List.take_append_of_le_length hv]

theorem unpackFrom_leBytes {n : ℕ} (hn : n < 256 ^ k) {b : List UInt8} (hb : b.length = off)
    (rest : List UInt8) : unpackFrom (b ++ leBytes k n ++ rest) off k = .ok n := by
  rw [← hb, unpackFrom_at (length_leBytes k n).ge, List.take_of_length_le (length_leBytes k n).le,
    leNat_leBytes hn]

theorem unpackSigned_at (hv : 0 < v.length) (b rest : List UInt8) :
    unpackSigned (b ++ v ++ rest) b.length = .ok (v.headD 0).toInt8 := by
  rw [unpackSigned_eq_ok (by simp only [List.length_append]; omega), List.append_assoc,
    List.drop_left]
  cases v with
  | nil => cases hv
  | cons x v => rfl

end PyBytes
