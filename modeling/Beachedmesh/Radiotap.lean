import Beachedmesh.Link

/-!
# The radiotap headers of the standard

A header is a chain of present words, each announcing the next one by its bit 31, and
behind it the fields of the first word in the order of their bits, each at its natural
alignment from the start of the header. The parser reads every such header back,
whatever stands in the other bits, in the padding and behind the fields it knows.
-/
namespace Beachedmesh
open PyBytes

/-- The fields of the bits 0 to 6, those absent as `none`. The rate counts 500 kb/s. -/
structure RadioFields where
  tsft : Option UInt64
  flags : Option UInt8
  rate : Option UInt8
  channel : Option (UInt16 × UInt16)
  fhss : Option (UInt8 × UInt8)
  signal : Option Int8
  noise : Option Int8

namespace RadioFields

/-- In the order of the bits: the natural alignment and the octets of each field. -/
def encoded (f : RadioFields) : List (ℕ × Option Bytes) :=
  [(8, f.tsft.map fun t => leBytes 8 t.toNat), (1, f.flags.map fun x => [x]),
    (1, f.rate.map fun x => [x]),
    (2, f.channel.map fun ch => leBytes 2 ch.1.toNat ++ leBytes 2 ch.2.toNat),
    (2, f.fhss.map fun h => [h.1, h.2]), (1, f.signal.map fun s => [s.toUInt8]),
    (1, f.noise.map fun s => [s.toUInt8])]

/-- What a reader reports of them. -/
def radioMeta (f : RadioFields) : RadioMeta where
  flags := f.flags.map UInt8.toNat
  rateMbps := f.rate.map fun x => x.toNat / 2
  freq := f.channel.map fun ch => ch.1.toNat
  rssi := f.signal
  noise := f.noise

end RadioFields

/-- The fields present, from the offset `off` on, each behind as much padding as its
alignment takes, with any octets. -/
inductive Laid : ℕ → List (ℕ × Option Bytes) → Bytes → Prop
  | nil (off : ℕ) : Laid off [] []
  | absent {off align : ℕ} {fields : List (ℕ × Option Bytes)} {b : Bytes} : Laid off fields b →
      Laid off ((align, none) :: fields) b
  | present {off align : ℕ} {fields : List (ℕ × Option Bytes)} {b : Bytes} (pad v : Bytes) :
      pad.length < align → align ∣ off + pad.length →
      Laid (off + pad.length + v.length) fields b →
      Laid off ((align, some v) :: fields) (pad ++ v ++ b)

/-- Bit 31 of a present word says that another one follows. -/
def Linked : ℕ → List ℕ → Prop
  | w, [] => w.testBit 31 = false
  | w, w' :: ws => w.testBit 31 = true ∧ Linked w' ws

/-- A header of the standard: `body` are the fields of the bits 0 to 6, `tail` any further
fields and padding. -/
structure RadiotapHeader where
  version : UInt8
  pad : UInt8
  first : ℕ
  chain : List ℕ
  fields : RadioFields
  body : Bytes
  tail : Bytes
  first_lt : first < 2 ^ 32
  chain_lt : ∀ w ∈ chain, w < 2 ^ 32
  linked : Linked first chain
  announced : (List.range 7).map first.testBit = fields.encoded.map fun e => e.2.isSome
  laid : Laid (8 + 4 * chain.length) fields.encoded body
  length_lt : 8 + 4 * chain.length + body.length + tail.length < 2 ^ 16

namespace RadiotapHeader

def itLen (h : RadiotapHeader) : ℕ := 8 + 4 * h.chain.length + h.body.length + h.tail.length

def bytes (h : RadiotapHeader) : Bytes :=
  [h.version, h.pad] ++ leBytes 2 h.itLen ++ leBytes 4 h.first ++ h.chain.flatMap (leBytes 4) ++
    h.body ++ h.tail

end RadiotapHeader

/-! ### The chain of present words -/

theorem length_flatMap_leBytes (ws : List ℕ) : (ws.flatMap (leBytes 4)).length = 4 * ws.length := by
  induction ws with
  | nil => rfl
  | cons w ws ih =>
    rw [List.flatMap_cons, List.length_append, length_leBytes, ih, List.length_cons]
    omega

/-- Following the chain ends behind its last word. -/
theorem skipPresent_chain {itLen w : ℕ} {ws : List ℕ} (hlink : Linked w ws)
    (hlt : ∀ w ∈ ws, w < 2 ^ 32) (pre post : Bytes) (hle : pre.length + 4 * ws.length ≤ itLen) :
    skipPresent (pre ++ ws.flatMap (leBytes 4) ++ post) itLen w pre.length =
      .ok (pre.length + 4 * ws.length) := by
  induction ws generalizing w pre with
  | nil =>
    rw [skipPresent, if_neg (by rw [hlink]; exact Bool.false_ne_true)]
    rfl
  | cons w' ws ih =>
    obtain ⟨hbit, hlink⟩ := hlink
    rw [List.length_cons] at hle ⊢
    have hread :
        unpackFrom (pre ++ (w' :: ws).flatMap (leBytes 4) ++ post) pre.length 4 = .ok w' := by
      rw [List.flatMap_cons, ← List.append_assoc, List.append_assoc]
      exact unpackFrom_leBytes (hlt w' (by simp)) rfl _
    rw [skipPresent, if_pos hbit, if_neg (by omega), hread]
    have hnext := ih hlink (fun w hw => hlt w (by simp [hw])) (pre ++ leBytes 4 w')
      (by rw [List.length_append, length_leBytes]; omega)
    rw [List.length_append, length_leBytes] at hnext
    simp only [List.flatMap_cons, List.append_assoc] at hnext ⊢
    rw [hnext]
    congr 1
    omega

/-! ### The fields -/

/-- The offset that the parser rounds up to is the one behind the padding. -/
theorem alignUp_eq {off align pad : ℕ} (hlt : pad < align) (hdvd : align ∣ off + pad) :
    alignUp off align = off + pad := by
  obtain ⟨q, hq⟩ := hdvd
  have hdiv : (off + align - 1) / align = q := by
    apply Nat.div_eq_of_lt_le
    · rw [Nat.mul_comm]
      omega
    · rw [Nat.succ_mul, Nat.mul_comm]
      omega
  rw [alignUp, hdiv, hq, Nat.mul_comm]

/-- The entry of `meta` that the octets of a field give, if it is there. -/
def RadioMeta.put (m : RadioMeta) (bit : ℕ) (v : Option Bytes) : RadioMeta :=
  match bit with
  | 1 => { m with flags := (v.map fun v => (v.headD 0).toNat).or m.flags }
  | 2 => { m with rateMbps := (v.map fun v => ((v.headD 0).toNat : ℚ) / 2).or m.rateMbps }
  | 3 => { m with freq := (v.map fun v => leNat (v.take 2)).or m.freq }
  | 5 => { m with rssi := (v.map fun v => (v.headD 0).toInt8).or m.rssi }
  | 6 => { m with noise := (v.map fun v => (v.headD 0).toInt8).or m.noise }
  | _ => m

theorem RadioMeta.put_none (m : RadioMeta) (bit : ℕ) : m.put bit none = m := by
  unfold RadioMeta.put
  split <;> rfl

theorem readField_at {bit align size : ℕ} (hf : (bit, align, size) ∈ rtFields) {v : Bytes}
    (hv : v.length = size) (pre post : Bytes) (m : RadioMeta) :
    readField (pre ++ v ++ post) pre.length bit m = .ok (m.put bit (some v)) := by
  simp only [rtFields, List.mem_cons, Prod.mk.injEq, List.not_mem_nil, or_false] at hf
  rcases hf with h | h | h | h | h | h | h
  all_goals obtain ⟨rfl, -, rfl⟩ := h
  · rfl
  · simp only [readField, index_at (hv ▸ Nat.one_pos)]
    rfl
  · simp only [readField, index_at (hv ▸ Nat.one_pos)]
    rfl
  · simp only [readField, unpackFrom_at (v := v) (k := 2) (by omega)]
    rfl
  · rfl
  · simp only [readField, unpackSigned_at (hv ▸ Nat.one_pos)]
    rfl
  · simp only [readField, unpackSigned_at (hv ▸ Nat.one_pos)]
    rfl

/-- An entry of the parser's table describes a field. -/
def Describes (first : ℕ) (entry : ℕ × ℕ × ℕ) (field : ℕ × Option Bytes) : Prop :=
  entry.2.1 = field.1 ∧ first.testBit entry.1 = field.2.isSome ∧
    ∀ v ∈ field.2, v.length = entry.2.2

/-- The parser reads the fields one after the other. -/
theorem readFields_laid {first itLen : ℕ} {entries : List (ℕ × ℕ × ℕ)}
    {fields : List (ℕ × Option Bytes)} (hd : List.Forall₂ (Describes first) entries fields)
    (hsub : entries ⊆ rtFields) {off : ℕ} {body : Bytes} (hl : Laid off fields body)
    (pre tail : Bytes) (hoff : pre.length = off) (hle : off + body.length ≤ itLen)
    (m : RadioMeta) :
    readFields (pre ++ body ++ tail) itLen first entries off m =
      .ok ((entries.zip fields).foldl (fun m e => m.put e.1.1 e.2.2) m) := by
  induction hl generalizing entries pre m with
  | nil off =>
    cases hd
    rfl
  | absent _ ih =>
    obtain ⟨entry, entries, h, htail, rfl⟩ := List.forall₂_cons_right_iff.mp hd
    obtain ⟨bit, align, size⟩ := entry
    obtain ⟨rfl, hbit, -⟩ := h
    rw [readFields, if_neg (by simp only at hbit; rw [hbit]; exact Bool.false_ne_true),
      List.zip_cons_cons, List.foldl_cons, RadioMeta.put_none]
    exact ih htail (fun e he => hsub (by simp [he])) pre hoff hle m
  | @present off align fields b pad v hlt hdvd _ ih =>
    obtain ⟨entry, entries, h, htail, rfl⟩ := List.forall₂_cons_right_iff.mp hd
    obtain ⟨bit, align', size⟩ := entry
    obtain ⟨rfl, hbit, hsize⟩ := h
    have hv : v.length = size := hsize v rfl
    have hmem : (bit, align', size) ∈ rtFields := hsub (by simp)
    simp only [List.length_append] at hle
    have hread : readField (pre ++ (pad ++ v ++ b) ++ tail) (off + pad.length) bit m =
        .ok (m.put bit (some v)) := by
      have hbytes : pre ++ (pad ++ v ++ b) ++ tail = pre ++ pad ++ v ++ (b ++ tail) := by
        simp only [List.append_assoc]
      have hat : off + pad.length = (pre ++ pad).length := by rw [List.length_append, hoff]
      rw [hbytes, hat]
      exact readField_at hmem hv _ _ m
    have hnext := ih htail (fun e he => hsub (by simp [he])) (pre ++ pad ++ v)
      (by simp only [List.length_append, hoff]) (by omega) (m.put bit (some v))
    rw [show pre ++ pad ++ v ++ b ++ tail = pre ++ (pad ++ v ++ b) ++ tail by
      simp only [List.append_assoc], hv] at hnext
    rw [readFields, if_pos (by simp only at hbit; rw [hbit]; rfl), alignUp_eq hlt hdvd]
    dsimp only
    rw [if_neg (by omega), hread]
    exact hnext

/-! ### The whole header -/

theorem RadioFields.describes (f : RadioFields) {first : ℕ}
    (h : (List.range 7).map first.testBit = f.encoded.map fun e => e.2.isSome) :
    List.Forall₂ (Describes first) rtFields f.encoded := by
  simp only [encoded, List.range, List.range.loop, List.map_cons, List.map_nil, List.cons.injEq,
    and_true] at h
  obtain ⟨h₀, h₁, h₂, h₃, h₄, h₅, h₆⟩ := h
  refine .cons ⟨rfl, h₀, ?_⟩ (.cons ⟨rfl, h₁, ?_⟩ (.cons ⟨rfl, h₂, ?_⟩ (.cons ⟨rfl, h₃, ?_⟩
    (.cons ⟨rfl, h₄, ?_⟩ (.cons ⟨rfl, h₅, ?_⟩ (.cons ⟨rfl, h₆, ?_⟩ .nil))))))
  all_goals
    intro v hv
    obtain ⟨x, -, rfl⟩ := Option.map_eq_some_iff.mp hv
    simp

/-- Putting the fields one after the other gives what they say. -/
theorem RadioFields.foldl_put (f : RadioFields) :
    (rtFields.zip f.encoded).foldl (fun m e => m.put e.1.1 e.2.2) {} = f.radioMeta := by
  have hchannel (ch : UInt16 × UInt16) :
      leNat ((leBytes 2 ch.1.toNat ++ leBytes 2 ch.2.toNat).take 2) = ch.1.toNat := by
    rw [List.take_left' (length_leBytes 2 _)]
    exact leNat_leBytes ch.1.toNat_lt
  simp only [encoded, rtFields, List.zip_cons_cons, List.zip_nil_right, List.foldl_cons,
    List.foldl_nil, RadioMeta.put, Option.map_map, Function.comp_def, hchannel, List.headD_cons,
    Int8.toInt8_toUInt8, Option.or_none, Option.map_id', radioMeta]

namespace RadiotapHeader

theorem length_bytes (h : RadiotapHeader) : h.bytes.length = h.itLen := by
  simp only [bytes, List.length_append, length_leBytes, length_flatMap_leBytes, List.length_cons,
    List.length_nil, itLen]

theorem parse_bytes (h : RadiotapHeader) :
    parseRadiotap h.bytes = .ok (h.fields.radioMeta, []) := by
  have hlen := h.length_bytes
  have hitLen : h.itLen = 8 + 4 * h.chain.length + h.body.length + h.tail.length := rfl
  -- the header, cut at the length, at the first word, at the chain and at the fields
  have hcut₁ : h.bytes = [h.version, h.pad] ++ leBytes 2 h.itLen ++
      (leBytes 4 h.first ++ h.chain.flatMap (leBytes 4) ++ h.body ++ h.tail) := by
    simp only [bytes, List.append_assoc]
  have hcut₂ : h.bytes = [h.version, h.pad] ++ leBytes 2 h.itLen ++ leBytes 4 h.first ++
      (h.chain.flatMap (leBytes 4) ++ h.body ++ h.tail) := by
    simp only [bytes, List.append_assoc]
  have hcut₃ : h.bytes = [h.version, h.pad] ++ leBytes 2 h.itLen ++ leBytes 4 h.first ++
      h.chain.flatMap (leBytes 4) ++ (h.body ++ h.tail) := by
    simp only [bytes, List.append_assoc]
  refine parseRadiotap_ok_iff.mpr ⟨h.itLen, h.first, 8 + 4 * h.chain.length, ?_, ?_, by omega,
    by omega, ?_, ?_, by rw [← hlen, List.drop_length]⟩
  · rw [hcut₁]
    exact unpackFrom_leBytes h.length_lt rfl _
  · rw [hcut₂]
    exact unpackFrom_leBytes h.first_lt (by simp) _
  · have hhead : ([h.version, h.pad] ++ leBytes 2 h.itLen ++ leBytes 4 h.first).length = 8 := by
      simp
    have hchain := skipPresent_chain h.linked h.chain_lt
      ([h.version, h.pad] ++ leBytes 2 h.itLen ++ leBytes 4 h.first) (h.body ++ h.tail)
      (show _ ≤ h.itLen by omega)
    rwa [← hcut₃, hhead] at hchain
  · have hpre : ([h.version, h.pad] ++ leBytes 2 h.itLen ++ leBytes 4 h.first ++
        h.chain.flatMap (leBytes 4)).length = 8 + 4 * h.chain.length := by
      simp only [List.length_append, length_leBytes, length_flatMap_leBytes, List.length_cons,
        List.length_nil]
    have hfields := readFields_laid (h.fields.describes h.announced) (List.Subset.refl _) h.laid _
      h.tail hpre (show _ ≤ h.itLen by omega) {}
    rwa [h.fields.foldl_put] at hfields

end RadiotapHeader

/-- Every header of the standard is read back, whatever follows it: what its fields say, and
the octets behind it. Of any buffer whatever, the parser either raises `ValueError` or
returns what is behind `it_len`, and reads nothing from there on: another rest gives the
same fields. -/
theorem radiotap_decodes :
    (∀ (h : RadiotapHeader) (rest : Bytes),
      parseRadiotap (h.bytes ++ rest) = .ok (h.fields.radioMeta, rest)) ∧
    ∀ buf : Bytes, (∃ text, parseRadiotap buf = .error (.valueError text)) ∨
      ∃ m itLen, unpackFrom buf 2 2 = .ok itLen ∧ itLen ≤ buf.length ∧
        parseRadiotap buf = .ok (m, buf.drop itLen) ∧
        ∀ other, parseRadiotap (buf.take itLen ++ other) = .ok (m, other) := by
  refine ⟨fun h rest => parseRadiotap_append h.parse_bytes, fun buf => ?_⟩
  cases hparse : parseRadiotap buf with
  | error e =>
    obtain ⟨text, rfl⟩ := parseRadiotap_error hparse
    exact Or.inl ⟨text, rfl⟩
  | ok r =>
    obtain ⟨m, rest⟩ := r
    obtain ⟨itLen, present, off, hit, hpresent, hge, hle, hskip, hread, rfl⟩ :=
      parseRadiotap_ok_iff.mp hparse
    refine Or.inr ⟨m, itLen, hit, hle, rfl, fun other => parseRadiotap_append ?_⟩
    have hlen : (buf.take itLen).length = itLen := List.length_take_of_le hle
    have hbuf : buf = buf.take itLen ++ buf.drop itLen := (List.take_append_drop itLen buf).symm
    rw [hbuf] at hit hpresent hskip hread
    refine parseRadiotap_ok_iff.mpr ⟨itLen, present, off, ?_, ?_, hge, hlen.ge, ?_, ?_, ?_⟩
    · rwa [unpackFrom_append (by omega)] at hit
    · rwa [unpackFrom_append (by omega)] at hpresent
    · rwa [skipPresent_append hlen.ge] at hskip
    · rwa [(readFields_eq _ hlen.ge present (List.Subset.refl rtFields) off {}).2] at hread
    · rw [List.drop_of_length_le hlen.le]

/-- Two present words; the clock stands behind four octets of padding, the channel behind
one, and two octets follow the signal. -/
def chainedHeader : RadiotapHeader where
  version := 0
  pad := 0
  first := 2 ^ 31 + 0b101011
  chain := [2 ^ 17]
  fields := ⟨some 7, some 0x10, none, some (2412, 0xa0), none, some (-60), none⟩
  body := [9, 9, 9, 9] ++ leBytes 8 7 ++ [] ++ [0x10] ++ [9] ++
    (leBytes 2 2412 ++ leBytes 2 0xa0) ++ [] ++ [0xc4]
  tail := [1, 2]
  first_lt := by decide
  chain_lt := by decide
  linked := ⟨by decide, show (2 ^ 17 : ℕ).testBit 31 = false by decide⟩
  announced := by decide
  laid := .present [9, 9, 9, 9] (leBytes 8 7) (by decide) (by decide)
    (.present [] [0x10] (by decide) (by decide) (.absent (.present [9] _ (by decide) (by decide)
      (.absent (.present [] [0xc4] (by decide) (by decide) (.absent (.nil _)))))))
  length_lt := by decide

example : parseRadiotap (chainedHeader.bytes ++ [5]) =
    .ok (⟨some 16, none, some 2412, some (-60), none⟩, [5]) := by
  decide +kernel

end Beachedmesh
