import Beachedmesh.Frame

/-!
# The packet codec is exact

Encoding and decoding are inverse to each other between the packets whose fields fit
their widths and the buffers that carry the magic and the version. A relay rewrites the
two octets of the hop limit in place.
-/
namespace Beachedmesh

theorem beNat_lt (b : Bytes) : beNat b < 256 ^ b.length := by
  induction b using List.reverseRecOn with
  | nil => simp
  | append_singleton b x ih =>
    have hx : x.toNat < 256 := x.toNat_lt
    rw [beNat_concat, List.length_append, List.length_singleton, pow_succ]
    omega

namespace Packet

/-- A buffer that `from_bytes` accepts. -/
structure Accepted (b : Bytes) : Prop where
  length_ge : headerLen ≤ b.length
  magic_eq : b.take 4 = magic
  version_eq : b[4]? = some (UInt8.ofNat Beachedmesh.version)

theorem getElem?_eq_getD {b : Bytes} (hlen : headerLen ≤ b.length) {i : ℕ} (hi : i < headerLen) :
    b[i]? = some (b.getD i 0) := by
  have hlt : i < b.length := hi.trans_le hlen
  simp [List.getD_eq_getElem?_getD, List.getElem?_eq_getElem hlt]

theorem Accepted.getD_eq {b : Bytes} (h : Accepted b) :
    (b.getD 4 0).toNat = Beachedmesh.version := by
  have hget := getElem?_eq_getD h.length_ge (show 4 < headerLen by decide)
  rw [Option.some.inj (hget.symm.trans h.version_eq)]
  rfl

/-- What an accepted buffer decodes to. -/
theorem Accepted.fromBytes {b : Bytes} (h : Accepted b) : ∃ p, fromBytes b = .ok p ∧
    p.src.val = (b.drop 13).take idLen ∧ p.dst.val = (b.drop 29).take idLen ∧
    p.type = (b.getD 5 0).toNat ∧ p.flags = (b.getD 6 0).toNat ∧
    p.hopLimit = beNat ((b.drop 7).take 2) ∧
    p.packetId.val = beBytes 4 (beNat ((b.drop 9).take 4)) ∧
    p.payload = b.drop headerLen ∧ p.version = Beachedmesh.version := by
  unfold Packet.fromBytes
  rw [dif_neg (not_lt.mpr h.length_ge), if_neg (not_not.mpr h.magic_eq)]
  dsimp only
  rw [if_neg (not_not.mpr h.getD_eq)]
  exact ⟨_, rfl, rfl, rfl, rfl, rfl, rfl, rfl, rfl, h.getD_eq⟩

theorem accepted_of_fromBytes {b : Bytes} {p : Packet} (h : fromBytes b = .ok p) :
    Accepted b := by
  unfold Packet.fromBytes at h
  by_cases hlen : b.length < headerLen
  · rw [dif_pos hlen] at h
    cases h
  rw [dif_neg hlen] at h
  by_cases hmagic : b.take 4 = magic
  · rw [if_neg (not_not.mpr hmagic)] at h
    dsimp only at h
    by_cases hver : (b.getD 4 0).toNat = Beachedmesh.version
    · refine ⟨not_lt.mp hlen, hmagic, ?_⟩
      rw [getElem?_eq_getD (not_lt.mp hlen) (show 4 < headerLen by decide), Option.some.injEq,
        ← UInt8.toNat_inj, hver]
      rfl
    · rw [if_pos hver] at h
      cases h
  · rw [if_pos hmagic] at h
    cases h

/-- An accepted buffer, cut at the boundaries of its fields. -/
theorem Accepted.cut {b : Bytes} (h : Accepted b) :
    b = magic ++ [b.getD 4 0, b.getD 5 0, b.getD 6 0] ++ (b.drop 7).take 2 ++ (b.drop 9).take 4 ++
      (b.drop 13).take idLen ++ (b.drop 29).take idLen ++ b.drop headerLen := by
  have hlen := h.length_ge
  have hone {i : ℕ} (hi : i < headerLen) : b.drop i = b.getD i 0 :: b.drop (i + 1) := by
    have hlt : i < b.length := hi.trans_le hlen
    rw [List.drop_eq_getElem_cons hlt, List.getD_eq_getElem?_getD, List.getElem?_eq_getElem hlt,
      Option.getD_some]
  calc b = b.take 4 ++ b.drop 4 := (List.take_append_drop 4 b).symm
    _ = magic ++ (b.getD 4 0 :: b.getD 5 0 :: b.getD 6 0 :: b.drop 7) := by
      rw [h.magic_eq, hone (i := 4) (by decide), hone (i := 5) (by decide),
        hone (i := 6) (by decide)]
    _ = magic ++ (b.getD 4 0 :: b.getD 5 0 :: b.getD 6 0 :: ((b.drop 7).take 2 ++
          ((b.drop 9).take 4 ++ ((b.drop 13).take idLen ++ ((b.drop 29).take idLen ++
            b.drop headerLen))))) := by
      rw [take_drop_append b (j := headerLen) rfl, take_drop_append b (j := 29) rfl,
        take_drop_append b (j := 13) rfl, take_drop_append b (j := 9) rfl]
    _ = _ := by simp

/-- A value that fits its field comes back from the octets it was read from. -/
theorem beBytes_beNat_of_length {b : Bytes} {k : ℕ} (h : b.length = k) :
    beBytes k (beNat b) = b := by
  rw [← h, beBytes_beNat]

/-- Encoding undoes decoding on every buffer that is accepted. -/
theorem toBytes_fromBytes {b : Bytes} {p : Packet} (h : Packet.fromBytes b = .ok p) :
    p.toBytes = some b := by
  have hb := accepted_of_fromBytes h
  obtain ⟨q, hq, hsrc, hdst, htype, hflags, hhop, hpid, hpay, hver⟩ := hb.fromBytes
  obtain rfl : p = q := Except.ok.inj (h.symm.trans hq)
  have hlen : 45 ≤ b.length := hb.length_ge
  have hhoplen : ((b.drop 7).take 2).length = 2 := by simp; omega
  have hpidlen : ((b.drop 9).take 4).length = 4 := by simp; omega
  have hhops := beBytes_beNat_of_length hhoplen
  have hid := beBytes_beNat_of_length hpidlen
  have hlt : beNat ((b.drop 7).take 2) < 65536 := by
    have hbound := beNat_lt ((b.drop 7).take 2)
    rwa [hhoplen] at hbound
  have hfit (x : UInt8) : packB x.toNat = some x := by
    rw [packB, if_pos x.toNat_lt, UInt8.ofNat_toNat]
  have hpackH : packH p.hopLimit = some ((b.drop 7).take 2) := by
    rw [hhop, packH, if_pos (by omega), Int.toNat_natCast, hhops]
  have hpackV : packB p.version = some (b.getD 4 0) := by rw [hver, ← hb.getD_eq, hfit]
  rw [hid] at hpid
  simp only [toBytes, hpackV, htype, hflags, hfit, hpackH, hpid, hid, hsrc, hdst, hpay,
    Option.pure_def, Option.bind_eq_bind, Option.bind_some]
  rw [← hb.cut]

theorem fromBytes_eq_ok_iff {b : Bytes} {p : Packet} :
    Packet.fromBytes b = .ok p ↔ p.version = Beachedmesh.version ∧ p.toBytes = some b := by
  constructor
  · intro h
    obtain ⟨q, hq, -, -, -, -, -, -, -, hver⟩ := (accepted_of_fromBytes h).fromBytes
    obtain rfl : p = q := Except.ok.inj (h.symm.trans hq)
    exact ⟨hver, toBytes_fromBytes h⟩
  · exact fun ⟨hver, h⟩ => fromBytes_toBytes hver h

/-- What a relay rewrites: the octets of the hop limit. -/
structure HopSpent (b b' : Bytes) : Prop where
  length_eq : b'.length = b.length
  before : b'.take 7 = b.take 7
  after : b'.drop 9 = b.drop 9
  spent : beNat ((b'.drop 7).take 2) + 1 = beNat ((b.drop 7).take 2)

/-- The octets of a packet, field by field. -/
theorem toBytes_eq_some_iff {p : Packet} {b : Bytes} :
    p.toBytes = some b ↔ ∃ ver ptype flags hops, packB p.version = some ver ∧
      packB p.type = some ptype ∧ packB p.flags = some flags ∧ packH p.hopLimit = some hops ∧
      b = magic ++ [ver, ptype, flags] ++ hops ++
        (beBytes 4 (beNat p.packetId) ++ p.src.val ++ p.dst.val ++ p.payload) := by
  simp only [toBytes, Option.pure_def, Option.bind_eq_bind, Option.bind_eq_some_iff,
    Option.some.injEq, List.append_assoc]
  constructor
  · rintro ⟨ver, hver, ptype, htype, flags, hflags, hops, hhops, rfl⟩
    exact ⟨ver, ptype, flags, hops, hver, htype, hflags, hhops, rfl⟩
  · rintro ⟨ver, ptype, flags, hops, hver, htype, hflags, hhops, rfl⟩
    exact ⟨ver, hver, ptype, htype, flags, hflags, hops, hhops, rfl⟩

theorem packH_eq_some_iff {n : ℤ} {hops : Bytes} :
    packH n = some hops ↔ hops.length = 2 ∧ (beNat hops : ℤ) = n := by
  unfold packH
  constructor
  · intro h
    split_ifs at h with hn
    obtain rfl := Option.some.inj h
    have hback := beNat_beBytes 2 n.toNat (by omega)
    exact ⟨length_beBytes 2 _, by omega⟩
  · rintro ⟨hlen, rfl⟩
    have hlt := beNat_lt hops
    rw [hlen] at hlt
    rw [if_pos (by omega), Int.toNat_natCast, beBytes_beNat_of_length hlen]

/-- A relay of an accepted buffer differs from it in the hop limit alone. -/
theorem hopSpent_relayed {b : Bytes} {p : Packet} (h : Packet.fromBytes b = .ok p)
    (hhop : p.hopLimit ≠ 0) :
    ∃ q b', p.relayed = some q ∧ q.toBytes = some b' ∧ HopSpent b b' := by
  obtain ⟨ver, ptype, flags, hops, hver, htype, hflags, hhops, rfl⟩ :=
    toBytes_eq_some_iff.mp (toBytes_fromBytes h)
  obtain ⟨hlen, heq⟩ := packH_eq_some_iff.mp hhops
  have hlt := beNat_lt hops
  rw [hlen] at hlt
  set less := beBytes 2 (beNat hops - 1) with hless
  have hback : beNat less = beNat hops - 1 := beNat_beBytes 2 _ (by omega)
  have hlesslen : less.length = 2 := length_beBytes 2 _
  have hpack : packH (p.hopLimit - 1) = some less :=
    packH_eq_some_iff.mpr ⟨hlesslen, by omega⟩
  refine ⟨{ p with hopLimit := p.hopLimit - 1 }, _,
    relayed_eq_some_iff.mpr ⟨by omega, rfl⟩,
    toBytes_eq_some_iff.mpr ⟨ver, ptype, flags, less, hver, htype, hflags, hpack, rfl⟩, ?_⟩
  obtain ⟨x, y, rfl⟩ := List.length_eq_two.mp hlen
  clear_value less
  obtain ⟨x', y', rfl⟩ := List.length_eq_two.mp hlesslen
  refine ⟨by simp, by simp [magic], by simp [magic], ?_⟩
  simp only [magic, List.cons_append, List.nil_append, List.drop_succ_cons, List.drop_zero,
    List.take_succ_cons, List.take_zero]
  omega

end Packet

/-- The codec is a bijection between the packets that fit the format and the buffers that
carry it: decoding undoes encoding, a buffer is accepted for its length, magic and version
alone, encoding undoes decoding, and a relay spends one hop in place. -/
theorem codec_bijection :
    (∀ p : Packet, p.version = version → p.type < 256 → p.flags < 256 → 0 ≤ p.hopLimit →
      p.hopLimit < 65536 → ∃ b, p.toBytes = some b ∧ Packet.fromBytes b = .ok p) ∧
    (∀ b, (∃ p, Packet.fromBytes b = .ok p) ↔
      headerLen ≤ b.length ∧ b.take 4 = magic ∧ b[4]? = some (UInt8.ofNat version)) ∧
    (∀ b p, Packet.fromBytes b = .ok p → p.toBytes = some b) ∧
    ∀ b p, Packet.fromBytes b = .ok p → p.hopLimit ≠ 0 →
      ∃ q b', p.relayed = some q ∧ q.toBytes = some b' ∧ Packet.HopSpent b b' := by
  refine ⟨fun p hver htype hflags hge hlt => ?_, fun b => ⟨?_, ?_⟩,
    fun b p => Packet.toBytes_fromBytes, fun b p => Packet.hopSpent_relayed⟩
  · have hsome : p.toBytes.isSome := by
      refine (Packet.toBytes_isSome_iff p).mpr ⟨?_, htype, hflags, hge, ?_⟩
      · rw [hver]
        decide
      · simp only [maxHopLimit]
        omega
    obtain ⟨b, hb⟩ := Option.isSome_iff_exists.mp hsome
    exact ⟨b, hb, Packet.fromBytes_toBytes hver hb⟩
  · rintro ⟨p, hp⟩
    obtain ⟨hlen, hmagic, hver⟩ := Packet.accepted_of_fromBytes hp
    exact ⟨hlen, hmagic, hver⟩
  · rintro ⟨hlen, hmagic, hver⟩
    obtain ⟨p, hp, -⟩ := Packet.Accepted.fromBytes ⟨hlen, hmagic, hver⟩
    exact ⟨p, hp⟩

theorem codec_bijection_sample : ∃ b,
    (Packet.mk (nodeIdOf 1) broadcast typeAnnounce flagNoAck 3 (packetIdOf 2) [9] version).toBytes =
      some b ∧
    ∃ q b', Packet.relayed ⟨nodeIdOf 1, broadcast, typeAnnounce, flagNoAck, 3, packetIdOf 2, [9],
      version⟩ = some q ∧ q.toBytes = some b' ∧ Packet.HopSpent b b' := by
  obtain ⟨b, hb, hp⟩ := codec_bijection.1
    ⟨nodeIdOf 1, broadcast, typeAnnounce, flagNoAck, 3, packetIdOf 2, [9], version⟩ rfl (by decide)
    (by decide) (by decide) (by decide)
  exact ⟨b, hb, codec_bijection.2.2.2 b _ hp (by decide)⟩

end Beachedmesh
