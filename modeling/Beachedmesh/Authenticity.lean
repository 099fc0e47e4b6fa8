import Beachedmesh.Identity

/-!
# Who can have made an accepted announce

The wire order of an announce differs from the order that is signed, and nothing in
either carries a length. Both orders can still be cut in one way only, because every
field but the last has a fixed width. So over an ideal signature scheme the payloads
accepted under a key are those that its owner built, up to the signature itself.
-/
namespace Beachedmesh

/-! ### Cutting the two orders -/

/-- A payload that is long enough is put together from its slices. -/
theorem eq_append_slices (payload : Bytes) : payload =
    payload.take keyLen ++ (payload.drop keyLen).take keyLen ++
      (payload.drop (keyLen * 2)).take randomLen ++
      (payload.drop (keyLen * 2 + randomLen)).take sigLen ++ payload.drop announceMin := by
  rw [List.append_assoc, List.append_assoc, List.append_assoc,
    take_drop_append _ (j := announceMin) rfl,
    take_drop_append _ (j := keyLen * 2 + randomLen) rfl,
    take_drop_append _ (j := keyLen * 2) (by omega), List.take_append_drop]

/-- The signed octets determine every field. -/
theorem announceSignedBytes_inj {src k e r a src' k' e' r' a' : Bytes}
    (hsrc : src.length = src'.length) (hk : k.length = k'.length) (he : e.length = e'.length)
    (hr : r.length = r'.length)
    (h : announceSignedBytes src k e r a = announceSignedBytes src' k' e' r' a') :
    src = src' ∧ k = k' ∧ e = e' ∧ r = r' ∧ a = a' := by
  simp only [announceSignedBytes, List.append_assoc] at h
  obtain ⟨h₁, h⟩ := List.append_inj h hsrc
  obtain ⟨h₂, h⟩ := List.append_inj h hk
  obtain ⟨h₃, h⟩ := List.append_inj h he
  obtain ⟨h₄, h₅⟩ := List.append_inj h hr
  exact ⟨h₁, h₂, h₃, h₄, h₅⟩

/-! ### The ideal scheme -/

/-- One call of `build_announce`: the octets it drew and its argument. -/
structure BuildCall where
  random : {b : Bytes // b.length = randomLen}
  appData : Bytes

/-- What the call signs. -/
def BuildCall.signed (d : BuildCall) (i : Identity) : Bytes :=
  announceSignedBytes i.nodeId i.signPub i.encryptPub d.random d.appData

/-- What the call tells whoever accepts its payload. -/
def BuildCall.info (d : BuildCall) (i : Identity) : AnnounceInfo :=
  ⟨i.nodeId, i.signPub, i.encryptPub, d.appData⟩

/-- Over an ideal scheme the signatures of the owner verify, and nothing else does under
the key; the owner signs in `build_announce` only. -/
structure Identity.Ideal (c : Crypto) (i : Identity) (calls : Set BuildCall) : Prop where
  nodeId_eq : nodeIdFromKey c i.signPub = i.nodeId.val
  signPub_len : i.signPub.length = keyLen
  encryptPub_len : i.encryptPub.length = keyLen
  sign_len : ∀ m, (i.sign m).length = sigLen
  honest : ∀ d ∈ calls, c.verify i.signPub (i.sign (d.signed i)) (d.signed i) = true
  unforgeable : ∀ sig m, c.verify i.signPub sig m = true → ∃ d ∈ calls, m = d.signed i

/-- The two payloads agree in everything but the octets of the signature. -/
structure SameButSignature (payload built : Bytes) : Prop where
  length_eq : payload.length = built.length
  before : payload.take (keyLen * 2 + randomLen) = built.take (keyLen * 2 + randomLen)
  after : payload.drop announceMin = built.drop announceMin

/-- The octets at the place of the signature. -/
def signatureOf (payload : Bytes) : Bytes := (payload.drop (keyLen * 2 + randomLen)).take sigLen

theorem sameButSignature_append {k e r s s' a : Bytes} (hk : k.length = keyLen)
    (he : e.length = keyLen) (hr : r.length = randomLen) (hs : s.length = sigLen)
    (hs' : s'.length = sigLen) :
    SameButSignature (k ++ e ++ r ++ s ++ a) (k ++ e ++ r ++ s' ++ a) where
  length_eq := by simp [hs, hs']
  before := by
    have hlen : (k ++ e ++ r).length = keyLen * 2 + randomLen := by
      simp only [List.length_append]
      omega
    rw [List.append_assoc _ s, List.append_assoc _ s', ← hlen, List.take_left, List.take_left]
  after := by rw [(sliced_append hk he hr hs).appData, (sliced_append hk he hr hs').appData]

/-- What agrees with a built payload is that payload with another signature. -/
theorem SameButSignature.eq_append {k e r s' a payload : Bytes} (hk : k.length = keyLen)
    (he : e.length = keyLen) (hr : r.length = randomLen) (hs' : s'.length = sigLen)
    (h : SameButSignature payload (k ++ e ++ r ++ s' ++ a)) :
    payload = k ++ e ++ r ++ signatureOf payload ++ a ∧
      (signatureOf payload).length = sigLen := by
  have hlen : (k ++ e ++ r).length = keyLen * 2 + randomLen := by
    simp only [List.length_append]
    omega
  have hfront : payload.take (keyLen * 2 + randomLen) = k ++ e ++ r := by
    rw [h.before, List.append_assoc _ s', ← hlen, List.take_left]
  have hback : payload.drop announceMin = a := h.after.trans (sliced_append hk he hr hs').appData
  refine ⟨?_, ?_⟩
  · have hrest : payload = payload.take (keyLen * 2 + randomLen) ++
        (signatureOf payload ++ payload.drop announceMin) := by
      rw [signatureOf, take_drop_append _ (j := announceMin) rfl,
        List.take_append_drop]
    rw [hfront, hback, ← List.append_assoc] at hrest
    exact hrest
  · have hlong := h.length_eq
    simp only [List.length_append, hk, he, hr, hs'] at hlong
    simp only [signatureOf, List.length_take, List.length_drop, hlong]
    omega

/-- Over an ideal scheme, whatever an identity builds is accepted, and a payload under its
key is accepted from `src` if and only if `src` is its address and the payload is one that
it built, up to a signature that verifies. What is read is then what was built. -/
theorem announce_authentic {c : Crypto} {i : Identity} {calls : Set BuildCall}
    (hi : i.Ideal c calls) :
    (∀ d ∈ calls, parseAnnounce c i.nodeId (i.buildAnnounce d.random d.appData) =
      .ok (d.info i)) ∧
    ∀ payload : Bytes, payload.take keyLen = i.signPub → ∀ (src : NodeId) (info : AnnounceInfo),
      parseAnnounce c src payload = .ok info ↔
        src = i.nodeId ∧ ∃ d ∈ calls,
          SameButSignature payload (i.buildAnnounce d.random d.appData) ∧
          c.verify i.signPub (signatureOf payload) (d.signed i) = true ∧ info = d.info i := by
  have hk := hi.signPub_len
  have he := hi.encryptPub_len
  refine ⟨fun d hd => ?_, fun payload hkey src info => ?_⟩
  · exact parseAnnounce_append hk he d.random.2 (hi.sign_len _) hi.nodeId_eq (hi.honest d hd)
  rw [parseAnnounce_eq_ok_iff, hkey]
  constructor
  · rintro ⟨hlen, hid, hver, rfl⟩
    obtain rfl : src = i.nodeId := Subtype.ext (hid.symm.trans hi.nodeId_eq)
    obtain ⟨d, hd, hsigned⟩ := hi.unforgeable _ _ hver
    have hlong : ∀ j k, j + k ≤ announceMin → ((payload.drop j).take k).length = k := by
      intro j k hjk
      rw [List.length_take, List.length_drop]
      omega
    obtain ⟨-, -, henc, hrandom, happ⟩ := announceSignedBytes_inj rfl rfl
      ((hlong _ _ (by decide)).trans he.symm) ((hlong _ _ (by decide)).trans d.random.2.symm)
      hsigned
    refine ⟨rfl, d, hd, ?_, hsigned ▸ hver, by rw [henc, happ]; rfl⟩
    have hcut := eq_append_slices payload
    rw [hkey, henc, hrandom, happ] at hcut
    rw [hcut]
    exact sameButSignature_append hk he d.random.2 (hlong _ _ (by decide)) (hi.sign_len _)
  · rintro ⟨rfl, d, hd, hsame, hver, rfl⟩
    obtain ⟨hcut, hslen⟩ := hsame.eq_append hk he d.random.2 (hi.sign_len _)
    have hok := parseAnnounce_append hk he d.random.2 hslen hi.nodeId_eq hver
    rw [← hcut, parseAnnounce_eq_ok_iff, hkey] at hok
    exact hok

/-- The owner of the genuine announce has built that one. -/
theorem ideal_lineIdentity :
    lineIdentity.Ideal sampleCrypto {⟨⟨sampleRandom, rfl⟩, [0x78]⟩} where
  nodeId_eq := by decide +kernel
  signPub_len := rfl
  encryptPub_len := rfl
  sign_len := by
    intro m
    unfold lineIdentity
    dsimp only
    split_ifs
    · decide
    · simp
  honest := by
    rintro d rfl
    decide +kernel
  unforgeable := by
    intro sig m h
    simp only [sampleCrypto, decide_eq_true_eq] at h
    exact ⟨_, rfl, h.2.2⟩

theorem announce_authentic_sample :
    parseAnnounce sampleCrypto sampleNode samplePayload =
      .ok ⟨sampleNode, samplePub, sampleEncryptPub, [0x78]⟩ ∧
    ∀ src, src ≠ sampleNode → ∀ info, parseAnnounce sampleCrypto src samplePayload ≠ .ok info := by
  obtain ⟨hbuilt, hiff⟩ := announce_authentic ideal_lineIdentity
  refine ⟨?_, fun src hsrc info hok => ?_⟩
  · have h := hbuilt _ rfl
    rwa [show lineIdentity.buildAnnounce sampleRandom [0x78] = samplePayload by decide +kernel] at h
  · exact hsrc ((hiff samplePayload (by decide +kernel) src info).mp hok).1

end Beachedmesh
