import Beachedmesh.Frame
import Beachedmesh.Support.PyBytes

/-!
# The radio

A frame in the air is an 802.11 header, a packet and a checksum; on receive the driver
puts a radiotap header of its own in front. Every read is the one that the code makes and
raises where it would, so that what `recv` returns also says what it cannot raise.
-/
namespace Beachedmesh
open PyBytes

def channel : ℕ := 1
def rateMbps : ℚ := 11

def broadcastMac : Mac := ⟨List.replicate 6 0xff, rfl⟩

/-- "BEACHD". -/
def bssid : Mac := ⟨[0x42, 0x45, 0x41, 0x43, 0x48, 0x44], rfl⟩

def txNoack : ℕ := 0x0008
def fFcsAtEnd : ℕ := 0x10
def fcData : UInt8 := 0x08
def dot11HdrLen : ℕ := 24

/-- What one `recv` of the socket returns at most. -/
def recvSize : ℕ := 4096

/-! ### Radiotap -/

/-- The header that asks the driver for a channel and a rate. -/
def radiotapTx (channel : ℕ) (rateMbps : ℚ) : Option Bytes := do
  let freq := if channel = 14 then 2484 else 2407 + channel * 5
  let chanFlags := 0x0080 ||| (if rateMbps ≤ 11 then 0x0020 else 0x0040)
  let present := 1 <<< 2 ||| 1 <<< 3 ||| 1 <<< 15
  let itLen ← packLE 2 16
  let present ← packLE 4 present
  let rate ← packLE 1 ⌊rateMbps * 2⌋₊
  let freq ← packLE 2 freq
  let chanFlags ← packLE 2 chanFlags
  let txFlags ← packLE 2 txNoack
  pure ([0, 0] ++ itLen ++ present ++ rate ++ [0] ++ freq ++ chanFlags ++ txFlags)

/-- Present bit, alignment and size, as far as the signal strength. -/
def rtFields : List (ℕ × ℕ × ℕ) :=
  [(0, 8, 8), (1, 1, 1), (2, 1, 1), (3, 2, 4), (4, 2, 2), (5, 1, 1), (6, 1, 1)]

/-- The entries of `meta` that radiotap fills in. -/
structure RadioMeta where
  flags : Option ℕ := none
  rateMbps : Option ℚ := none
  freq : Option ℕ := none
  rssi : Option Int8 := none
  noise : Option Int8 := none
  deriving DecidableEq

/-- `(off + align - 1) & ~(align - 1)`, for the alignments of the table, powers of two. -/
def alignUp (off align : ℕ) : ℕ := (off + align - 1) / align * align

/-- Follow the chained present words: bit 31 of each says that another one follows. -/
def skipPresent (buf : Bytes) (itLen present off : ℕ) : Except PyError ℕ :=
  if present.testBit 31 then
    if off + 4 > itLen then .error (.valueError "truncated radiotap")
    else
      match unpackFrom buf off 4 with
      | .error e => .error e
      | .ok next => skipPresent buf itLen next (off + 4)
  else .ok off
termination_by itLen - off

def readField (buf : Bytes) (off bit : ℕ) (m : RadioMeta) : Except PyError RadioMeta :=
  match bit with
  | 1 => do
    let x ← index buf off
    pure { m with flags := some x.toNat }
  | 2 => do
    let x ← index buf off
    pure { m with rateMbps := some (x.toNat / 2) }
  | 3 => do
    let x ← unpackFrom buf off 2
    pure { m with freq := some x }
  | 5 => do
    let x ← unpackSigned buf off
    pure { m with rssi := some x }
  | 6 => do
    let x ← unpackSigned buf off
    pure { m with noise := some x }
  | _ => pure m

/-- The fields that the first present word announces, up to the end of the header. -/
def readFields (buf : Bytes) (itLen first : ℕ) :
    List (ℕ × ℕ × ℕ) → ℕ → RadioMeta → Except PyError RadioMeta
  | [], _, m => .ok m
  | (bit, align, size) :: fields, off, m =>
    if first.testBit bit then
      let off := alignUp off align
      if off + size > itLen then .ok m
      else do
        let m ← readField buf off bit m
        readFields buf itLen first fields (off + size) m
    else readFields buf itLen first fields off m

/-- Metadata and the rest of the frame. -/
def parseRadiotap (buf : Bytes) : Except PyError (RadioMeta × Bytes) :=
  if buf.length < 8 then .error (.valueError "short radiotap")
  else do
    let itLen ← unpackFrom buf 2 2
    let present ← unpackFrom buf 4 4
    if itLen < 8 ∨ itLen > buf.length then .error (.valueError "bad radiotap length")
    else do
      let off ← skipPresent buf itLen present 8
      let m ← readFields buf itLen present rtFields off {}
      pure (m, buf.drop itLen)

/-! ### Sending and receiving -/

structure MonitorLink where
  ifname : String
  mac : Mac
  rt : Bytes

/-- Everything that `recv` reports of a frame. -/
structure LinkMeta extends RadioMeta where
  raw : Bytes
  radiotap : Bytes
  srcMac : Mac
  dot11 : Bytes
  fcs : Bytes

namespace MonitorLink

/-- Frame control, duration, the three addresses and the sequence control. -/
def dot11 (l : MonitorLink) : Bytes :=
  [fcData, 0] ++ [0, 0] ++ broadcastMac.val ++ l.mac.val ++ bssid.val ++ [0, 0]

def send (l : MonitorLink) (packetBytes : Bytes) : Bytes := l.rt ++ l.dot11 ++ packetBytes

/-- The driver handed up the checksum too. -/
def HasFcs (m : RadioMeta) : Prop := m.flags.getD 0 &&& fFcsAtEnd ≠ 0

instance (m : RadioMeta) : Decidable (HasFcs m) := inferInstanceAs (Decidable (_ ≠ _))

/-- The frame without its checksum, and the checksum. -/
def splitFcs (m : RadioMeta) (frame : Bytes) : Bytes × Bytes :=
  if HasFcs m ∧ 4 ≤ frame.length then
    (frame.take (frame.length - 4), frame.drop (frame.length - 4))
  else (frame, [])

/-- One of our packets, or `none`; `got` is the datagram at the socket, `none` for its
timeout. -/
def recv (got : Option Bytes) : Except PyError (Option (Bytes × LinkMeta)) :=
  match got.map (List.take recvSize) with
  | none => .ok none
  | some [] => .ok none
  | some buf =>
    match parseRadiotap buf with
    | .error (.valueError _) => .ok none
    | .error e => .error e
    | .ok (m, rest) =>
      let radiotap := buf.take (buf.length - rest.length)
      let frame := (splitFcs m rest).1
      let fcs := (splitFcs m rest).2
      if h : frame.length ≤ dot11HdrLen then .ok none
      else
        match index frame 0 with
        | .error e => .error e
        | .ok fc =>
          if fc ≠ fcData ∨ (frame.drop 16).take 6 ≠ bssid.val then .ok none
          else .ok (some (frame.drop dot11HdrLen, { m with
            raw := buf
            radiotap := radiotap
            srcMac := ⟨(frame.drop 10).take 6, by simp [dot11HdrLen] at h ⊢; omega⟩
            dot11 := frame.take dot11HdrLen
            fcs := fcs }))

end MonitorLink

/-! ### The parser stays within its header -/

section Within

variable {hdr rest buf : Bytes} {itLen : ℕ}

theorem skipPresent_append (hle : itLen ≤ hdr.length) (present off : ℕ) :
    skipPresent (hdr ++ rest) itLen present off = skipPresent hdr itLen present off := by
  fun_induction skipPresent hdr itLen present off with
  | case1 present off hbit hoff => rw [skipPresent, if_pos hbit, if_pos hoff]
  | case2 present off hbit hoff e he =>
    rw [unpackFrom_eq_ok (by omega)] at he
    cases he
  | case3 present off hbit hoff next hnext ih =>
    rw [skipPresent, if_pos hbit, if_neg hoff, unpackFrom_append (by omega), hnext]
    exact ih
  | case4 present off hbit => rw [skipPresent, if_neg hbit]

/-- Following the chain raises nothing but the `ValueError` of the code. -/
theorem skipPresent_error (hle : itLen ≤ buf.length) {present off : ℕ} {e : PyError}
    (h : skipPresent buf itLen present off = .error e) :
    e = .valueError "truncated radiotap" := by
  fun_induction skipPresent buf itLen present off with
  | case1 present off hbit hoff => exact (Except.error.inj h).symm
  | case2 present off hbit hoff e' he =>
    rw [unpackFrom_eq_ok (by omega)] at he
    cases he
  | case3 present off hbit hoff next hnext ih => exact ih h
  | case4 present off hbit => cases h

variable (rest) in
/-- Every field reads within its own size. -/
theorem readField_eq {bit align size off : ℕ} (hf : (bit, align, size) ∈ rtFields)
    (hoff : off + size ≤ hdr.length) (m : RadioMeta) :
    (∃ m', readField hdr off bit m = .ok m') ∧
      readField (hdr ++ rest) off bit m = readField hdr off bit m := by
  have hbyte (hsize : 1 ≤ size) : off < hdr.length := by omega
  simp only [rtFields, List.mem_cons, Prod.mk.injEq, List.not_mem_nil, or_false] at hf
  rcases hf with h | h | h | h | h | h | h
  all_goals obtain ⟨rfl, -, rfl⟩ := h
  · exact ⟨⟨m, rfl⟩, rfl⟩
  · simp only [readField, index_append (hbyte le_rfl), index_eq_ok (hbyte le_rfl)]
    exact ⟨⟨_, rfl⟩, trivial⟩
  · simp only [readField, index_append (hbyte le_rfl), index_eq_ok (hbyte le_rfl)]
    exact ⟨⟨_, rfl⟩, trivial⟩
  · have htwo : off + 2 ≤ hdr.length := by omega
    simp only [readField, unpackFrom_append htwo, unpackFrom_eq_ok htwo]
    exact ⟨⟨_, rfl⟩, trivial⟩
  · exact ⟨⟨m, rfl⟩, rfl⟩
  · simp only [readField, unpackSigned_append hoff, unpackSigned_eq_ok hoff]
    exact ⟨⟨_, rfl⟩, trivial⟩
  · simp only [readField, unpackSigned_append hoff, unpackSigned_eq_ok hoff]
    exact ⟨⟨_, rfl⟩, trivial⟩

variable (rest) in
theorem readFields_eq (hle : itLen ≤ hdr.length) (first : ℕ) {fields : List (ℕ × ℕ × ℕ)}
    (hf : fields ⊆ rtFields) (off : ℕ) (m : RadioMeta) :
    (∃ m', readFields hdr itLen first fields off m = .ok m') ∧
      readFields (hdr ++ rest) itLen first fields off m =
        readFields hdr itLen first fields off m := by
  induction fields generalizing off m with
  | nil => exact ⟨⟨m, rfl⟩, rfl⟩
  | cons field fields ih =>
    obtain ⟨bit, align, size⟩ := field
    have hmem : (bit, align, size) ∈ rtFields := hf (by simp)
    have htail : fields ⊆ rtFields := fun x hx => hf (by simp [hx])
    simp only [readFields]
    split_ifs with hbit hend
    · exact ⟨⟨m, rfl⟩, rfl⟩
    · obtain ⟨⟨m', hm'⟩, heq⟩ := readField_eq rest hmem
        (by omega : alignUp off align + size ≤ hdr.length) m
      simp only [heq, hm']
      exact ih htail _ m'
    · exact ih htail _ m

/-- An accepted buffer has a header of a length it can hold, whose chain ends and whose
fields are read. -/
theorem parseRadiotap_ok_iff {m : RadioMeta} :
    parseRadiotap buf = .ok (m, rest) ↔ ∃ itLen present off,
      unpackFrom buf 2 2 = .ok itLen ∧ unpackFrom buf 4 4 = .ok present ∧ 8 ≤ itLen ∧
      itLen ≤ buf.length ∧ skipPresent buf itLen present 8 = .ok off ∧
      readFields buf itLen present rtFields off {} = .ok m ∧ rest = buf.drop itLen := by
  unfold parseRadiotap
  constructor
  · intro h
    split_ifs at h with hlen
    rw [unpackFrom_eq_ok (by omega), unpackFrom_eq_ok (by omega)] at h ⊢
    simp only [bind, Except.bind] at h
    split_ifs at h with hit
    simp only [not_or, not_lt] at hit
    split at h
    · cases h
    split at h
    · cases h
    next off hskip _ m' hread =>
      obtain ⟨rfl, rfl⟩ := Prod.mk.inj (Except.ok.inj h)
      exact ⟨_, _, off, rfl, rfl, hit.1, hit.2, hskip, hread, rfl⟩
  · rintro ⟨itLen, present, off, hit, hpresent, hge, hle, hskip, hread, rfl⟩
    rw [if_neg (by omega), hit, hpresent]
    simp only [bind, Except.bind]
    rw [if_neg (by omega), hskip]
    simp only [hread]
    rfl

/-- The parser raises `ValueError` and nothing else. -/
theorem parseRadiotap_error {e : PyError} (h : parseRadiotap buf = .error e) :
    ∃ text, e = .valueError text := by
  unfold parseRadiotap at h
  split_ifs at h with hlen
  · exact ⟨_, (Except.error.inj h).symm⟩
  rw [unpackFrom_eq_ok (by omega), unpackFrom_eq_ok (by omega)] at h
  simp only [bind, Except.bind] at h
  split_ifs at h with hit
  · exact ⟨_, (Except.error.inj h).symm⟩
  simp only [not_or, not_lt] at hit
  split at h
  next e' hskip =>
    obtain rfl := Except.error.inj h
    exact ⟨_, skipPresent_error hit.2 hskip⟩
  next off hskip =>
    obtain ⟨⟨m, hm⟩, -⟩ := readFields_eq [] hit.2 (leNat ((buf.drop 4).take 4))
      (List.Subset.refl rtFields) off {}
    rw [hm] at h
    cases h

/-- What follows an accepted header does not change how it is parsed. -/
theorem parseRadiotap_append {m : RadioMeta} (h : parseRadiotap hdr = .ok (m, [])) :
    parseRadiotap (hdr ++ rest) = .ok (m, rest) := by
  obtain ⟨itLen, present, off, hit, hpresent, hge, hle, hskip, hread, hrest⟩ :=
    parseRadiotap_ok_iff.mp h
  have hall : itLen = hdr.length := le_antisymm hle (List.drop_eq_nil_iff.mp hrest.symm)
  refine parseRadiotap_ok_iff.mpr ⟨itLen, present, off, ?_, ?_, hge, ?_, ?_, ?_, ?_⟩
  · rw [unpackFrom_append (by omega), hit]
  · rw [unpackFrom_append (by omega), hpresent]
  · rw [List.length_append]
    omega
  · rw [skipPresent_append hle, hskip]
  · rw [(readFields_eq rest hle present (List.Subset.refl rtFields) off {}).2, hread]
  · rw [hall, List.drop_left]

end Within

namespace MonitorLink

variable {got : Option Bytes} {p : Bytes} {lm : LinkMeta}

/-- Everything `recv` can return. -/
inductive Received : Option Bytes → Option (Bytes × LinkMeta) → Prop
  | nothing (got : Option Bytes) : Received got none
  | packet {datagram rest frame fcs : Bytes} {m : RadioMeta} {lm : LinkMeta} :
      parseRadiotap (datagram.take recvSize) = .ok (m, rest) → rest = frame ++ fcs →
      fcs.length = (if HasFcs m ∧ 4 ≤ rest.length then 4 else 0) →
      dot11HdrLen < frame.length → frame[0]? = some fcData →
      (frame.drop 16).take 6 = bssid.val → lm.toRadioMeta = m →
      lm.raw = datagram.take recvSize → lm.radiotap ++ rest = datagram.take recvSize →
      lm.srcMac.val = (frame.drop 10).take 6 → lm.dot11 = frame.take dot11HdrLen →
      lm.fcs = fcs → Received (some datagram) (some (frame.drop dot11HdrLen, lm))

theorem splitFcs_eq (m : RadioMeta) (rest : Bytes) :
    (splitFcs m rest).1 ++ (splitFcs m rest).2 = rest ∧
      (splitFcs m rest).2.length = if HasFcs m ∧ 4 ≤ rest.length then 4 else 0 := by
  unfold splitFcs
  split_ifs with h
  · exact ⟨List.take_append_drop _ _, by rw [List.length_drop]; omega⟩
  · exact ⟨List.append_nil _, rfl⟩

theorem recv_cases (got : Option Bytes) : ∃ r, recv got = .ok r ∧ Received got r := by
  unfold recv
  cases got with
  | none => exact ⟨none, rfl, .nothing none⟩
  | some datagram =>
    rw [Option.map_some]
    split
    · exact ⟨none, rfl, .nothing _⟩
    · exact ⟨none, rfl, .nothing _⟩
    next buf hne hbuf =>
      obtain rfl := Option.some.inj hbuf
      cases hparse : parseRadiotap (datagram.take recvSize) with
      | error e =>
        obtain ⟨text, rfl⟩ := parseRadiotap_error hparse
        exact ⟨none, rfl, .nothing _⟩
      | ok r =>
        obtain ⟨m, rest⟩ := r
        set buf := datagram.take recvSize with hbufdef
        have hrest : buf.take (buf.length - rest.length) ++ rest = buf := by
          obtain ⟨itLen, -, -, -, -, -, hle, -, -, rfl⟩ := parseRadiotap_ok_iff.mp hparse
          rw [List.length_drop, Nat.sub_sub_self hle, List.take_append_drop]
        obtain ⟨hsplit, hfcs⟩ := splitFcs_eq m rest
        rcases hs : splitFcs m rest with ⟨frame, fcs⟩
        rw [hs] at hsplit hfcs
        simp only [hs]
        split_ifs with hlong
        · exact ⟨none, rfl, .nothing _⟩
        have hpos : 0 < frame.length := (Nat.zero_le _).trans_lt (not_le.mp hlong)
        simp only [index_eq_ok hpos]
        split_ifs with hours
        · exact ⟨none, rfl, .nothing _⟩
        · simp only [not_or, not_not] at hours
          refine ⟨_, rfl, .packet hparse hsplit.symm hfcs (not_le.mp hlong) ?_ hours.2 rfl rfl
            hrest rfl rfl rfl⟩
          rw [List.getElem?_eq_getElem hpos, hours.1]

theorem length_dot11 (l : MonitorLink) : l.dot11.length = dot11HdrLen := by
  simp [dot11, l.mac.2, bssid, broadcastMac, dot11HdrLen]

theorem dot11_eq (l : MonitorLink) : l.dot11[0]? = some fcData ∧
    (l.dot11.drop 10).take 6 = l.mac.val ∧ (l.dot11.drop 16).take 6 = bssid.val := by
  obtain ⟨mac, hmac⟩ := (⟨l.mac, rfl⟩ : ∃ m, m = l.mac)
  obtain ⟨b, hb⟩ := mac
  match b, hb with
  | [b₁, b₂, b₃, b₄, b₅, b₆], _ =>
    refine ⟨rfl, ?_, ?_⟩
    all_goals
      rw [dot11, ← hmac]
      rfl

/-- A frame of ours behind any header that the driver may write is received as it was
sent. -/
theorem recv_frame (l : MonitorLink) {hdr fcs : Bytes} {m : RadioMeta}
    (hhdr : parseRadiotap hdr = .ok (m, [])) (hp : p ≠ [])
    (hfcs : fcs.length = if HasFcs m then 4 else 0)
    (hlen : (hdr ++ l.dot11 ++ p ++ fcs).length ≤ recvSize) :
    ∃ lm, recv (some (hdr ++ l.dot11 ++ p ++ fcs)) = .ok (some (p, lm)) ∧
      lm.toRadioMeta = m ∧ lm.srcMac = l.mac ∧ lm.raw = hdr ++ l.dot11 ++ p ++ fcs ∧
      lm.radiotap = hdr ∧ lm.dot11 = l.dot11 ∧ lm.fcs = fcs := by
  obtain ⟨hfc, hmac, hbssid⟩ := l.dot11_eq
  have hdlen := l.length_dot11
  have hbuf : (hdr ++ l.dot11 ++ p ++ fcs).take recvSize = hdr ++ (l.dot11 ++ p ++ fcs) := by
    rw [List.take_of_length_le hlen]
    simp
  have hparse : parseRadiotap (hdr ++ (l.dot11 ++ p ++ fcs)) = .ok (m, l.dot11 ++ p ++ fcs) :=
    parseRadiotap_append hhdr
  have hplen : 0 < p.length := List.length_pos_iff.mpr hp
  have hrest : (l.dot11 ++ p ++ fcs).length = dot11HdrLen + p.length + fcs.length := by
    simp only [List.length_append, hdlen]
  have hhead : dot11HdrLen = 24 := rfl
  -- the checksum is cut off exactly when it is there
  have hcut : splitFcs m (l.dot11 ++ p ++ fcs) = (l.dot11 ++ p, fcs) := by
    unfold splitFcs
    split_ifs with hflag
    · rw [if_pos hflag.1] at hfcs
      have hcutlen : (l.dot11 ++ p ++ fcs).length - 4 = (l.dot11 ++ p).length := by
        rw [List.length_append, hfcs, Nat.add_sub_cancel]
      rw [hcutlen, List.take_left, List.drop_left]
    · have hno : ¬ HasFcs m := fun h => hflag ⟨h, by omega⟩
      rw [if_neg hno] at hfcs
      rw [List.length_eq_zero_iff.mp hfcs, List.append_nil]
  have hlong : ¬ (l.dot11 ++ p).length ≤ dot11HdrLen := by
    rw [List.length_append, hdlen]
    omega
  have hindex : index (l.dot11 ++ p) 0 = .ok fcData := by
    rw [index_append (by omega), index_eq_ok_iff, hfc]
  have hslice (i : ℕ) (hi : i + 6 ≤ 24) :
      ((l.dot11 ++ p).drop i).take 6 = (l.dot11.drop i).take 6 :=
    take_drop_append_left (by omega)
  have hbody : (l.dot11 ++ p).drop dot11HdrLen = p := by rw [← hdlen, List.drop_left]
  have htop : (l.dot11 ++ p).take dot11HdrLen = l.dot11 := by rw [← hdlen, List.take_left]
  have hmac' := (hslice 10 (by omega)).trans hmac
  have hbssid' := (hslice 16 (by omega)).trans hbssid
  unfold recv
  rw [Option.map_some, hbuf]
  cases hb : hdr ++ (l.dot11 ++ p ++ fcs) with
  | nil =>
    have hnil := congrArg List.length hb
    rw [List.length_append, hrest, List.length_nil] at hnil
    omega
  | cons x t =>
    rw [hb] at hparse
    simp only [hparse, hcut, hlong, dif_neg, not_false_eq_true, hindex, ne_eq, not_true_eq_false,
      hbssid', or_self, if_false, hbody]
    refine ⟨_, rfl, rfl, Subtype.ext hmac', ?_, ?_, ?_, rfl⟩
    · rw [← hb]
      simp
    · rw [← hb, List.length_append, Nat.add_sub_cancel, List.take_left]
    · exact htop

end MonitorLink

/-- A packet sent in the format of `_dot11` is received as it was sent, whatever header the
receiving driver writes, with the checksum cut off if the header announces it. Conversely,
a packet is received only from a frame of type data with the BSSID at the third address. -/
theorem link_delivers :
    (∀ (l : MonitorLink) (p hdr fcs : Bytes) (m : RadioMeta), p ≠ [] →
      parseRadiotap hdr = .ok (m, []) →
      (fcs.length = if MonitorLink.HasFcs m then 4 else 0) →
      (hdr ++ l.dot11 ++ p ++ fcs).length ≤ recvSize →
      ∃ lm, MonitorLink.recv (some (hdr ++ l.dot11 ++ p ++ fcs)) = .ok (some (p, lm)) ∧
        lm.srcMac = l.mac ∧
        lm.radiotap ++ lm.dot11 ++ p ++ lm.fcs = hdr ++ l.dot11 ++ p ++ fcs) ∧
    ∀ (got : Option Bytes) (p : Bytes) (lm : LinkMeta),
      MonitorLink.recv got = .ok (some (p, lm)) → ∃ datagram m rest, got = some datagram ∧
        parseRadiotap (datagram.take recvSize) = .ok (m, rest) ∧ rest[0]? = some fcData ∧
        (rest.drop 16).take 6 = bssid.val := by
  refine ⟨fun l p hdr fcs m hp hhdr hfcs hlen => ?_, fun got p lm h => ?_⟩
  · obtain ⟨lm, hrecv, -, hmac, -, hradio, hdot, hfcs'⟩ := l.recv_frame hhdr hp hfcs hlen
    exact ⟨lm, hrecv, hmac, by rw [hradio, hdot, hfcs']⟩
  · obtain ⟨r, hr, hcases⟩ := MonitorLink.recv_cases got
    obtain rfl := Except.ok.inj (h.symm.trans hr)
    cases hcases with
    | @packet datagram rest frame fcs m _ hparse hrest _ hlong hfc hbssid _ _ _ _ _ _ =>
      refine ⟨datagram, m, rest, rfl, hparse, ?_, ?_⟩
      · rw [hrest, List.getElem?_append_left (by omega), hfc]
      · rw [hrest, PyBytes.take_drop_append_left (by simp only [dot11HdrLen] at hlong; omega),
          hbssid]

/-- A header with TSFT, flags that announce a checksum, a rate, a channel and a signal. -/
def sampleRadiotap : Bytes :=
  [0, 0, 23, 0, 0x2f, 0, 0, 0] ++ List.replicate 8 7 ++ [0x10, 22, 0x6c, 0x09, 0xa0, 0, 0xc4]

theorem link_delivers_sample : ∃ lm,
    MonitorLink.recv (some (sampleRadiotap ++ (MonitorLink.mk "wlan1" (macOf 1) []).dot11 ++ [9] ++
      [1, 2, 3, 4])) = .ok (some ([9], lm)) ∧ lm.srcMac = macOf 1 := by
  have hparse : parseRadiotap sampleRadiotap =
      .ok (⟨some 16, some 11, some 2412, some (-60), none⟩, []) := by
    decide +kernel
  obtain ⟨lm, hrecv, hmac, -⟩ := link_delivers.1 (MonitorLink.mk "wlan1" (macOf 1) []) [9]
    sampleRadiotap [1, 2, 3, 4] _ (by decide) hparse (by decide) (by decide)
  exact ⟨lm, hrecv, hmac⟩

end Beachedmesh
