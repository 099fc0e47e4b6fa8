import Mathlib.Data.List.Basic
import Mathlib.Tactic

/-!
# The packet header

A packet is the end-to-end unit: relays copy it unchanged except for `hopLimit`,
which each of them decrements. Byte strings are lists of octets; identifiers
carry the length that the constructor checks. `struct.pack` is partial, and
`none` stands for the `struct.error` it raises on a value too wide for its field.
-/
namespace Beachedmesh

abbrev Bytes := List UInt8

/-- A field of `k` octets and what follows it. -/
theorem take_drop_append (b : Bytes) {i k j : ℕ} (hj : i + k = j) :
    (b.drop i).take k ++ b.drop j = b.drop i := by
  rw [← hj, ← List.drop_drop, List.take_append_drop]

/-! ### Big-endian integers -/

/-- `int.from_bytes(b, "big")`. -/
def beNat (b : Bytes) : ℕ := b.foldl (fun n x => 256 * n + x.toNat) 0

/-- `n.to_bytes(k, "big")`, for `n` of at most `k` octets. -/
def beBytes : ℕ → ℕ → Bytes
  | 0, _ => []
  | k + 1, n => beBytes k (n / 256) ++ [UInt8.ofNat n]

@[simp] theorem length_beBytes (k n : ℕ) : (beBytes k n).length = k := by
  induction k generalizing n with
  | zero => rfl
  | succ k ih => simp [beBytes, ih]

@[simp] theorem beNat_nil : beNat [] = 0 := rfl

@[simp] theorem beNat_concat (b : Bytes) (x : UInt8) :
    beNat (b ++ [x]) = 256 * beNat b + x.toNat := by
  simp [beNat]

theorem beNat_beBytes (k n : ℕ) (h : n < 256 ^ k) : beNat (beBytes k n) = n := by
  induction k generalizing n with
  | zero => simp at h; simp [beBytes, h]
  | succ k ih =>
    have hdiv : n / 256 < 256 ^ k := Nat.div_lt_of_lt_mul (by rwa [pow_succ, Nat.mul_comm] at h)
    rw [beBytes, beNat_concat, ih _ hdiv, UInt8.toNat_ofNat']
    omega

theorem beBytes_beNat (b : Bytes) : beBytes b.length (beNat b) = b := by
  induction b using List.reverseRecOn with
  | nil => rfl
  | append_singleton b x ih =>
    have hx : x.toNat < 256 := x.toNat_lt
    have hdiv : (256 * beNat b + x.toNat) / 256 = beNat b := by omega
    have hlast : UInt8.ofNat (256 * beNat b + x.toNat) = x := by
      apply UInt8.toNat_inj.mp
      rw [UInt8.toNat_ofNat']
      omega
    rw [List.length_append, List.length_singleton, beNat_concat, beBytes, hdiv, hlast, ih]

/-! ### Packets -/

def magic : Bytes := [0x42, 0x43, 0x48, 0x44]
def version : ℕ := 1
def headerLen : ℕ := 45
def idLen : ℕ := 16

abbrev NodeId := {b : Bytes // b.length = idLen}
abbrev PacketId := {b : Bytes // b.length = 4}
abbrev Mac := {b : Bytes // b.length = 6}

def broadcast : NodeId := ⟨List.replicate idLen 0xff, rfl⟩

/-! Identifiers of one repeated octet, for runs on fixed inputs. -/

def nodeIdOf (x : UInt8) : NodeId := ⟨List.replicate idLen x, by simp⟩
def packetIdOf (x : UInt8) : PacketId := ⟨List.replicate 4 x, by simp⟩
def macOf (x : UInt8) : Mac := ⟨List.replicate 6 x, by simp⟩

def typeData : ℕ := 0x01
def typeAnnounce : ℕ := 0x02

def flagNoAck : ℕ := 0x00

def defaultHopLimit : ℤ := 3
def maxHopLimit : ℤ := 0xFFFF

/-- Why `from_bytes` refuses a buffer. -/
inductive BadFrame where
  | short (length : ℕ)
  | badMagic
  | unsupportedVersion (ver : ℕ)
  deriving DecidableEq

structure Packet where
  src : NodeId
  dst : NodeId
  type : ℕ
  flags : ℕ
  hopLimit : ℤ
  packetId : PacketId
  payload : Bytes
  version : ℕ
  deriving DecidableEq

/-- Dedup identity: the originator and the packet id, never the previous hop. -/
abbrev Key := NodeId × PacketId

namespace Packet

def key (p : Packet) : Key := (p.src, p.packetId)

/-- A copy with one hop spent, or `none` if it must not travel further. -/
def relayed (p : Packet) : Option Packet :=
  if p.hopLimit ≤ 0 then none else some { p with hopLimit := p.hopLimit - 1 }

theorem relayed_eq_some_iff {p q : Packet} :
    p.relayed = some q ↔ 0 < p.hopLimit ∧ q = { p with hopLimit := p.hopLimit - 1 } := by
  rw [relayed]
  split_ifs with h
  · simp; omega
  · simp only [Option.some.injEq, eq_comm (a := q), iff_and_self]; omega

/-- Everything but the hop limit is end to end. -/
theorem relayed_key {p q : Packet} (h : p.relayed = some q) : q.key = p.key := by
  obtain ⟨-, rfl⟩ := relayed_eq_some_iff.mp h
  rfl

/-- A field of format `B`. -/
def packB (n : ℕ) : Option UInt8 := if n < 256 then some (UInt8.ofNat n) else none

/-- A field of format `H`. -/
def packH (n : ℤ) : Option Bytes := if 0 ≤ n ∧ n < 65536 then some (beBytes 2 n.toNat) else none

/-- `struct.pack(HEADER_FMT, ...) + payload`. -/
def toBytes (p : Packet) : Option Bytes := do
  let ver ← packB p.version
  let ptype ← packB p.type
  let flags ← packB p.flags
  let hops ← packH p.hopLimit
  pure (magic ++ [ver, ptype, flags] ++ hops ++ beBytes 4 (beNat p.packetId) ++
    p.src.val ++ p.dst.val ++ p.payload)

def fromBytes (buf : Bytes) : Except BadFrame Packet :=
  if h : buf.length < headerLen then .error (.short buf.length)
  else if buf.take 4 ≠ magic then .error .badMagic
  else
    let ver := (buf.getD 4 0).toNat
    if ver ≠ Beachedmesh.version then .error (.unsupportedVersion ver)
    else .ok {
      src := ⟨(buf.drop 13).take idLen, by simp [headerLen, idLen] at h ⊢; omega⟩
      dst := ⟨(buf.drop 29).take idLen, by simp [headerLen, idLen] at h ⊢; omega⟩
      type := (buf.getD 5 0).toNat
      flags := (buf.getD 6 0).toNat
      hopLimit := beNat ((buf.drop 7).take 2)
      packetId := ⟨beBytes 4 (beNat ((buf.drop 9).take 4)), by simp⟩
      payload := buf.drop headerLen
      version := ver }

/-- The packer succeeds exactly when every field fits its width. -/
theorem toBytes_isSome_iff (p : Packet) :
    p.toBytes.isSome ↔ p.version < 256 ∧ p.type < 256 ∧ p.flags < 256 ∧
      0 ≤ p.hopLimit ∧ p.hopLimit ≤ maxHopLimit := by
  have hmax : maxHopLimit = 65535 := rfl
  simp only [toBytes, packB, packH]
  split_ifs <;> simp_all <;> omega

/-- Decoding undoes encoding on packets of the current version. -/
theorem fromBytes_toBytes {p : Packet} {b : Bytes} (hv : p.version = Beachedmesh.version)
    (h : p.toBytes = some b) : fromBytes b = .ok p := by
  obtain ⟨⟨src, hsrc⟩, ⟨dst, hdst⟩, type, flags, hopLimit, ⟨pid, hpid⟩, payload, ver⟩ := p
  have hfit := (toBytes_isSome_iff _).mp (Option.isSome_of_eq_some h)
  obtain ⟨-, ht, hf, h0, hH⟩ := hfit
  simp only [Beachedmesh.version] at hv
  simp only [maxHopLimit] at hH
  subst hv
  have hhop : beNat (beBytes 2 hopLimit.toNat) = hopLimit.toNat := beNat_beBytes 2 _ (by omega)
  have hpb : beBytes 4 (beNat pid) = pid := by rw [← hpid]; exact beBytes_beNat pid
  simp only [toBytes, packB, packH, ht, hf, h0, show hopLimit < 65536 by omega,
    Nat.one_lt_ofNat, and_self, ↓reduceIte, Option.pure_def, Option.bind_eq_bind,
    Option.bind_some, Option.some.injEq, hpb] at h
  generalize hbs : beBytes 2 hopLimit.toNat = hb at h hhop
  have hblen : hb.length = 2 := by rw [← hbs]; simp
  obtain ⟨h₁, h₂, rfl⟩ := List.length_eq_two.mp hblen
  obtain ⟨p₁, p₂, p₃, p₄, rfl⟩ : ∃ a b c d, pid = [a, b, c, d] := by
    match pid, hpid with
    | [a, b, c, d], _ => exact ⟨a, b, c, d, rfl⟩
  subst h
  simp only [idLen] at hsrc hdst
  have hs : (src ++ (dst ++ payload)).take 16 = src := by rw [← hsrc, List.take_left]
  have hp : (src ++ (dst ++ payload)).drop 32 = payload := by
    rw [show 32 = 16 + 16 from rfl, ← List.drop_drop, ← hsrc, List.drop_left, hsrc, ← hdst,
      List.drop_left]
  have hto : (hopLimit.toNat : ℤ) = hopLimit := Int.toNat_of_nonneg h0
  have hpid4 : beBytes 4 (beNat [p₁, p₂, p₃, p₄]) = [p₁, p₂, p₃, p₄] := hpb
  simp [fromBytes, headerLen, magic, Beachedmesh.version, hsrc, hdst, hs, hp, hhop, hto,
    hpid4, idLen, UInt8.toNat_ofNat', Nat.mod_eq_of_lt ht, Nat.mod_eq_of_lt hf]
  rw [dif_neg (by omega)]

end Packet

end Beachedmesh
