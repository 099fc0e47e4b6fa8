import Beachedmesh.Frame

/-!
# Identities and announces

A node id is the truncated hash of a signing key. The hash and the signature
check belong to other libraries and enter as parameters; a private key enters as
the signing function it provides.
-/
namespace Beachedmesh

/-- The primitives the code calls: SHA-256, and Ed25519 verification of
`(public key, signature, message)`. -/
structure Crypto where
  sha256 : Bytes → Bytes
  verify : Bytes → Bytes → Bytes → Bool

def keyLen : ℕ := 32
def randomLen : ℕ := 10
def sigLen : ℕ := 64
def announceMin : ℕ := keyLen * 2 + randomLen + sigLen

def nodeIdFromKey (c : Crypto) (signPub : Bytes) : Bytes := (c.sha256 signPub).take idLen

/-- This node's keys, with the signing half as a function. -/
structure Identity where
  nodeId : NodeId
  signPub : Bytes
  encryptPub : Bytes
  sign : Bytes → Bytes

/-- `src` is included so that an announce cannot be lifted onto another address. -/
def announceSignedBytes (src signPub encryptPub random appData : Bytes) : Bytes :=
  src ++ signPub ++ encryptPub ++ random ++ appData

/-- Payload of an announce; `random` is the draw of `os.urandom(RANDOM_LEN)`. -/
def Identity.buildAnnounce (i : Identity) (random appData : Bytes) : Bytes :=
  let signed := announceSignedBytes i.nodeId i.signPub i.encryptPub random appData
  i.signPub ++ i.encryptPub ++ random ++ i.sign signed ++ appData

inductive BadAnnounce where
  | short (length : ℕ)
  | wrongKey
  | badSignature
  deriving DecidableEq

structure AnnounceInfo where
  nodeId : NodeId
  signPub : Bytes
  encryptPub : Bytes
  appData : Bytes
  deriving DecidableEq

def parseAnnounce (c : Crypto) (src : NodeId) (payload : Bytes) : Except BadAnnounce AnnounceInfo :=
  if payload.length < announceMin then .error (.short payload.length)
  else
    let signPub := payload.take keyLen
    let encryptPub := (payload.drop keyLen).take keyLen
    let random := (payload.drop (keyLen * 2)).take randomLen
    let sig := (payload.drop (keyLen * 2 + randomLen)).take sigLen
    let appData := payload.drop announceMin
    if nodeIdFromKey c signPub ≠ src.val then .error .wrongKey
    else
      let signed := announceSignedBytes src signPub encryptPub random appData
      if c.verify signPub sig signed then
        .ok { nodeId := src, signPub := signPub, encryptPub := encryptPub, appData := appData }
      else .error .badSignature

/-- What acceptance says: the id is the hash of the key, the signature verifies,
and the fields are the slices of the payload. -/
theorem parseAnnounce_eq_ok_iff {c : Crypto} {src : NodeId} {payload : Bytes}
    {info : AnnounceInfo} :
    parseAnnounce c src payload = .ok info ↔
      announceMin ≤ payload.length ∧ nodeIdFromKey c (payload.take keyLen) = src.val ∧
      c.verify (payload.take keyLen) ((payload.drop (keyLen * 2 + randomLen)).take sigLen)
        (announceSignedBytes src (payload.take keyLen) ((payload.drop keyLen).take keyLen)
          ((payload.drop (keyLen * 2)).take randomLen) (payload.drop announceMin)) = true ∧
      info = ⟨src, payload.take keyLen, (payload.drop keyLen).take keyLen,
        payload.drop announceMin⟩ := by
  simp only [parseAnnounce]
  split_ifs with hlen hid hsig
  · simp; omega
  · simp [hid]
  · simp only [not_not] at hid
    simp only [Except.ok.injEq, hid, hsig, true_and, show announceMin ≤ payload.length by omega]
    exact eq_comm
  · simp [hsig]

/-- An accepted announce names its source, whose id is the hash of its key. -/
theorem parseAnnounce_nodeId {c : Crypto} {src : NodeId} {payload : Bytes} {info : AnnounceInfo}
    (h : parseAnnounce c src payload = .ok info) :
    info.nodeId = src ∧ nodeIdFromKey c info.signPub = src.val := by
  obtain ⟨-, hid, -, rfl⟩ := parseAnnounce_eq_ok_iff.mp h
  exact ⟨rfl, hid⟩

/-- Both keys of an accepted announce are whole, so neither is falsy. -/
theorem parseAnnounce_keyLen {c : Crypto} {src : NodeId} {payload : Bytes} {info : AnnounceInfo}
    (h : parseAnnounce c src payload = .ok info) :
    info.signPub.length = keyLen ∧ info.encryptPub.length = keyLen := by
  obtain ⟨hlen, -, -, rfl⟩ := parseAnnounce_eq_ok_iff.mp h
  simp only [announceMin, keyLen, randomLen, sigLen] at hlen ⊢
  constructor <;> simp <;> omega

/-- The slices that the parser takes of a payload put together from its fields. -/
structure Sliced (payload k e r s a : Bytes) : Prop where
  signPub : payload.take keyLen = k
  encryptPub : (payload.drop keyLen).take keyLen = e
  random : (payload.drop (keyLen * 2)).take randomLen = r
  sig : (payload.drop (keyLen * 2 + randomLen)).take sigLen = s
  appData : payload.drop announceMin = a

theorem sliced_append {k e r s a : Bytes} (hk : k.length = keyLen) (he : e.length = keyLen)
    (hr : r.length = randomLen) (hs : s.length = sigLen) :
    Sliced (k ++ e ++ r ++ s ++ a) k e r s a := by
  have h₂ : keyLen * 2 = k.length + e.length := by omega
  have h₃ : keyLen * 2 + randomLen = k.length + (e.length + r.length) := by omega
  have h₄ : announceMin = k.length + (e.length + (r.length + s.length)) := by
    simp only [announceMin]
    omega
  constructor
  · simp [← hk]
  · rw [List.append_assoc, List.append_assoc, List.append_assoc, ← hk, List.drop_left, hk, ← he,
      List.take_left]
  · rw [h₂, ← List.drop_drop]
    simp [List.append_assoc, ← hr]
  · rw [h₃, ← List.drop_drop, ← List.drop_drop]
    simp [List.append_assoc, ← hs]
  · rw [h₄, ← List.drop_drop, ← List.drop_drop, ← List.drop_drop]
    simp [List.append_assoc]

/-- A payload put together from its fields is accepted if its key hashes to the source and
its signature verifies. -/
theorem parseAnnounce_append {c : Crypto} {src : NodeId} {k e r s a : Bytes}
    (hk : k.length = keyLen) (he : e.length = keyLen) (hr : r.length = randomLen)
    (hs : s.length = sigLen) (hid : nodeIdFromKey c k = src.val)
    (hver : c.verify k s (announceSignedBytes src k e r a) = true) :
    parseAnnounce c src (k ++ e ++ r ++ s ++ a) = .ok ⟨src, k, e, a⟩ := by
  obtain ⟨h₁, h₂, h₃, h₄, h₅⟩ := sliced_append (a := a) hk he hr hs
  refine parseAnnounce_eq_ok_iff.mpr ⟨?_, ?_, ?_, ?_⟩
  · simp only [List.length_append, hk, he, hr, hs, announceMin]
    omega
  · rw [h₁, hid]
  · rw [h₁, h₂, h₃, h₄, h₅, hver]
  · rw [h₁, h₂, h₅]

/-- What an honest signer's key does: its id is the hash of its key, the lengths
are those of Ed25519 and X25519, and its own signatures verify. -/
structure Identity.Honest (c : Crypto) (i : Identity) : Prop where
  nodeId_eq : nodeIdFromKey c i.signPub = i.nodeId.val
  signPub_len : i.signPub.length = keyLen
  encryptPub_len : i.encryptPub.length = keyLen
  sign_len : ∀ m, (i.sign m).length = sigLen
  verify_sign : ∀ m, c.verify i.signPub (i.sign m) m = true

/-- An announce that an honest identity builds is accepted, with its own fields. -/
theorem parseAnnounce_buildAnnounce {c : Crypto} {i : Identity} (hi : i.Honest c)
    {random appData : Bytes} (hr : random.length = randomLen) :
    parseAnnounce c i.nodeId (i.buildAnnounce random appData) =
      .ok ⟨i.nodeId, i.signPub, i.encryptPub, appData⟩ :=
  parseAnnounce_append hi.signPub_len hi.encryptPub_len hr (hi.sign_len _) hi.nodeId_eq
    (hi.verify_sign _)

/-! ### One genuine announce

Ed25519 and X25519 public keys, the hash of the former, and a signature made with
the private half: for runs on fixed inputs. -/

def samplePub : Bytes :=
  [0xd7, 0x5a, 0x98, 0x01, 0x82, 0xb1, 0x0a, 0xb7, 0xd5, 0x4b, 0xfe, 0xd3, 0xc9, 0x64, 0x07, 0x3a,
   0x0e, 0xe1, 0x72, 0xf3, 0xda, 0xa6, 0x23, 0x25, 0xaf, 0x02, 0x1a, 0x68, 0xf7, 0x07, 0x51, 0x1a]

def sampleEncryptPub : Bytes :=
  [0xce, 0x8d, 0x3a, 0xd1, 0xcc, 0xb6, 0x33, 0xec, 0x7b, 0x70, 0xc1, 0x78, 0x14, 0xa5, 0xc7, 0x6e,
   0xcd, 0x02, 0x96, 0x85, 0x05, 0x0d, 0x34, 0x47, 0x45, 0xba, 0x05, 0x87, 0x0e, 0x58, 0x7d, 0x59]

def samplePubHash : Bytes :=
  [0x21, 0xfe, 0x31, 0xdf, 0xa1, 0x54, 0xa2, 0x61, 0x62, 0x6b, 0xf8, 0x54, 0x04, 0x6f, 0xd2, 0x27,
   0x1b, 0x7b, 0xed, 0x4b, 0x6a, 0xbe, 0x45, 0xaa, 0x58, 0x87, 0x7e, 0xf4, 0x7f, 0x97, 0x21, 0xb9]

def sampleRandom : Bytes := List.range randomLen |>.map UInt8.ofNat

theorem length_sampleRandom : sampleRandom.length = randomLen := by decide

theorem length_zeros : (List.replicate randomLen (0 : UInt8)).length = randomLen := by decide

def sampleSig : Bytes :=
  [0x4f, 0xc6, 0x6d, 0xe5, 0x9f, 0xfa, 0x0c, 0x5c, 0xac, 0x29, 0xdc, 0xb8, 0x6b, 0x8d, 0xc1, 0xc2,
   0x6a, 0xd1, 0x12, 0x34, 0x60, 0xdd, 0x2f, 0xbb, 0x4c, 0xac, 0x1a, 0x11, 0xa8, 0x62, 0x9e, 0x7a,
   0xb5, 0xcd, 0xea, 0x46, 0xe5, 0xd0, 0xce, 0xbb, 0x58, 0x5c, 0x72, 0x43, 0x91, 0x2a, 0x78, 0xf2,
   0xa8, 0xb3, 0x7f, 0x11, 0x3c, 0x16, 0xa8, 0x17, 0xdf, 0xa7, 0x39, 0xee, 0xb0, 0xc4, 0x75, 0x06]

/-- The SHA-256 of 32 zero octets. -/
def zeroHash : Bytes :=
  [0x66, 0x68, 0x7a, 0xad, 0xf8, 0x62, 0xbd, 0x77, 0x6c, 0x8f, 0xc1, 0x8b, 0x8e, 0x9f, 0x8e, 0x20,
   0x08, 0x97, 0x14, 0x85, 0x6e, 0xe2, 0x33, 0xb3, 0x90, 0x2a, 0x59, 0x1d, 0x0d, 0x5f, 0x29, 0x25]

def sampleNode : NodeId := ⟨samplePubHash.take idLen, rfl⟩

/-- The announce of `sampleNode`, with the name `x`. -/
def samplePayload : Bytes := samplePub ++ sampleEncryptPub ++ sampleRandom ++ sampleSig ++ [0x78]

/-- The owner of the genuine announce, with its signing half. -/
def lineIdentity : Identity where
  nodeId := sampleNode
  signPub := samplePub
  encryptPub := sampleEncryptPub
  sign m :=
    if m = announceSignedBytes sampleNode samplePub sampleEncryptPub sampleRandom [0x78] then
      sampleSig
    else List.replicate sigLen 0

/-- What the real primitives answer on the samples. -/
def sampleCrypto : Crypto where
  sha256 := fun b =>
    if b = samplePub then samplePubHash else if b = List.replicate keyLen 0 then zeroHash else []
  verify := fun key sig signed =>
    decide (key = samplePub ∧ sig = sampleSig ∧
      signed = announceSignedBytes sampleNode samplePub sampleEncryptPub sampleRandom [0x78])

/-- Nobody else signs for that owner. -/
def lineCrypto : Crypto where
  sha256 := sampleCrypto.sha256
  verify key sig m := decide (key = samplePub ∧ sig = lineIdentity.sign m)

example : parseAnnounce sampleCrypto sampleNode samplePayload =
    .ok ⟨sampleNode, samplePub, sampleEncryptPub, [0x78]⟩ := by
  decide +kernel

end Beachedmesh
