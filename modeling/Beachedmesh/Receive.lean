import Beachedmesh.Codec
import Beachedmesh.Link
import Beachedmesh.Unverified

/-!
# What is received cannot stop the loop

The receive path once more, from the socket to the route table, with every exception that
a line of it can raise and with the handlers that the code has. The raising functions are
those of the model behind a check that never fails: what one layer hands to the next is of
the width that the next one needs.
-/
namespace Beachedmesh
open Machine PyBytes

/-- An exception on the receive path. -/
inductive Raised where
  | builtin (e : PyError)
  | badFrame (e : BadFrame)
  | badAnnounce (e : BadAnnounce)
  | invalidSignature
  deriving DecidableEq

/-- The crypto library: `Ed25519PublicKey.from_public_bytes(key).verify(sig, msg)` returns or
raises. -/
structure CryptoLib where
  sha256 : Bytes → Bytes
  verify : Bytes → Bytes → Bytes → Except Raised Unit

/-- On a whole key and a whole signature `verify` raises nothing but `InvalidSignature`. -/
def CryptoLib.Documented (lib : CryptoLib) : Prop :=
  ∀ key sig msg, key.length = keyLen → sig.length = sigLen →
    lib.verify key sig msg = .ok () ∨ lib.verify key sig msg = .error .invalidSignature

/-- The library as a test of signatures. -/
def CryptoLib.crypto (lib : CryptoLib) : Crypto where
  sha256 := lib.sha256
  verify key sig msg := match lib.verify key sig msg with
    | .ok _ => true
    | .error _ => false

namespace Raising

/-! ### Packets -/

/-- `n.to_bytes(k, "big")`. -/
def intToBytes (n k : ℕ) : Except PyError Bytes :=
  if n < 256 ^ k then .ok (beBytes k n) else .error .overflowError

/-- `Packet(...)`. -/
def packet (src dst : Bytes) (type flags : ℕ) (hopLimit : ℤ) (packetId payload : Bytes)
    (version : ℕ) : Except PyError Packet :=
  if h : src.length = idLen ∧ dst.length = idLen then
    if h' : packetId.length = 4 then
      .ok ⟨⟨src, h.1⟩, ⟨dst, h.2⟩, type, flags, hopLimit, ⟨packetId, h'⟩, payload, version⟩
    else .error (.valueError "packet_id must be 4 bytes")
  else .error (.valueError "node ids must be 16 bytes")

/-- The fields of `HEADER_FMT`. -/
structure Header where
  magic : Bytes
  ver : ℕ
  ptype : ℕ
  flags : ℕ
  hops : ℕ
  pid : ℕ
  src : Bytes
  dst : Bytes

/-- `struct.unpack_from(HEADER_FMT, buf, 0)`. -/
def unpackHeader (buf : Bytes) : Except PyError Header :=
  if headerLen ≤ buf.length then
    .ok ⟨buf.take 4, (buf.getD 4 0).toNat, (buf.getD 5 0).toNat, (buf.getD 6 0).toNat,
      beNat ((buf.drop 7).take 2), beNat ((buf.drop 9).take 4), (buf.drop 13).take idLen,
      (buf.drop 29).take idLen⟩
  else .error .structError

def fromBytes (buf : Bytes) : Except Raised Packet :=
  if buf.length < headerLen then .error (.badFrame (.short buf.length))
  else
    match unpackHeader buf with
    | .error e => .error (.builtin e)
    | .ok hd =>
      if hd.magic ≠ magic then .error (.badFrame .badMagic)
      else if hd.ver ≠ version then .error (.badFrame (.unsupportedVersion hd.ver))
      else
        match intToBytes hd.pid 4 with
        | .error e => .error (.builtin e)
        | .ok pid =>
          match packet hd.src hd.dst hd.ptype hd.flags hd.hops pid (buf.drop headerLen) hd.ver with
          | .error e => .error (.builtin e)
          | .ok pkt => .ok pkt

/-- Decoding raises `BadFrame` and nothing else. -/
theorem fromBytes_eq (buf : Bytes) :
    fromBytes buf = match Packet.fromBytes buf with
      | .error e => .error (.badFrame e)
      | .ok pkt => .ok pkt := by
  unfold fromBytes Packet.fromBytes
  by_cases hlen : buf.length < headerLen
  · rw [if_pos hlen, dif_pos hlen]
  have hlong : headerLen ≤ buf.length := not_lt.mp hlen
  rw [if_neg hlen, dif_neg hlen, unpackHeader, if_pos hlong]
  dsimp only
  split_ifs with hmagic hver
  · rfl
  · rfl
  have h45 : 45 ≤ buf.length := hlong
  have hpidlen : ((buf.drop 9).take 4).length = 4 := by simp; omega
  have hpid : beNat ((buf.drop 9).take 4) < 256 ^ 4 := by
    have hlt := beNat_lt ((buf.drop 9).take 4)
    rwa [hpidlen] at hlt
  have hids : ((buf.drop 13).take idLen).length = idLen ∧
      ((buf.drop 29).take idLen).length = idLen := by
    simp only [idLen, List.length_take, List.length_drop]
    omega
  rw [intToBytes, if_pos hpid]
  simp only [packet, dif_pos hids, length_beBytes, dite_true]

/-! ### Announces -/

def parseAnnounce (lib : CryptoLib) (src : NodeId) (payload : Bytes) : Except Raised AnnounceInfo :=
  if payload.length < announceMin then .error (.badAnnounce (.short payload.length))
  else
    let signPub := payload.take keyLen
    let encryptPub := (payload.drop keyLen).take keyLen
    let random := (payload.drop (keyLen * 2)).take randomLen
    let sig := (payload.drop (keyLen * 2 + randomLen)).take sigLen
    let appData := payload.drop announceMin
    if (lib.sha256 signPub).take idLen ≠ src.val then .error (.badAnnounce .wrongKey)
    else
      match lib.verify signPub sig (announceSignedBytes src signPub encryptPub random appData) with
      | .error .invalidSignature => .error (.badAnnounce .badSignature)
      | .error e => .error e
      | .ok () => .ok ⟨src, signPub, encryptPub, appData⟩

/-- The library is called with a whole key and a whole signature. -/
theorem parseAnnounce_eq {lib : CryptoLib} (hlib : lib.Documented) (src : NodeId)
    (payload : Bytes) :
    parseAnnounce lib src payload = match Beachedmesh.parseAnnounce lib.crypto src payload with
      | .error e => .error (.badAnnounce e)
      | .ok info => .ok info := by
  unfold parseAnnounce Beachedmesh.parseAnnounce
  by_cases hlen : payload.length < announceMin
  · rw [if_pos hlen, if_pos hlen]
  rw [if_neg hlen, if_neg hlen]
  dsimp only
  rw [show nodeIdFromKey lib.crypto (payload.take keyLen) =
    (lib.sha256 (payload.take keyLen)).take idLen from rfl]
  by_cases hid : (lib.sha256 (payload.take keyLen)).take idLen = src.val
  swap
  · rw [if_pos hid, if_pos hid]
  rw [if_neg (not_not.mpr hid), if_neg (not_not.mpr hid)]
  have hlong : ∀ i k, i + k ≤ announceMin → ((payload.drop i).take k).length = k := by
    intro i k hik
    rw [List.length_take, List.length_drop]
    omega
  have hkey : (payload.take keyLen).length = keyLen := hlong 0 keyLen (by decide)
  have hsig : ((payload.drop (keyLen * 2 + randomLen)).take sigLen).length = sigLen :=
    hlong _ _ (by decide)
  rcases hlib _ _ (announceSignedBytes src (payload.take keyLen)
    ((payload.drop keyLen).take keyLen) ((payload.drop (keyLen * 2)).take randomLen)
    (payload.drop announceMin)) hkey hsig with h | h
  all_goals simp [CryptoLib.crypto, h]

/-! ### The node -/

/-- `self.routes.learn(...)`: packing a field that does not fit raises. -/
def learnFrom (n : Node) (pkt : Packet) (m : FrameMeta) (info : Option AnnounceInfo)
    (verdict : Verdict) (clk : HandleClock) : Except Raised (Node × List Event) :=
  match n.learnFrom pkt m info verdict clk with
  | some r => .ok r
  | none => .error (.builtin .structError)

def handleAnnounce (lib : CryptoLib) (n : Node) (pkt : Packet) (m : FrameMeta)
    (verdict : Verdict) (clk : HandleClock) : Except Raised (Node × List Event) :=
  if verdict.IsFirst then
    match parseAnnounce lib pkt.src pkt.payload with
    | .error (.badAnnounce e) =>
      .ok ({ n with stats := { n.stats with rejected := n.stats.rejected + 1 } },
        [.announceRejected pkt e])
    | .error e => .error e
    | .ok info => learnFrom n pkt m (some info) verdict clk
  else if verdict = .own then .ok (n, [])
  else learnFrom n pkt m none verdict clk

def handle (lib : CryptoLib) (n : Node) (data : Bytes) (m : FrameMeta) (clk : HandleClock) :
    Except Raised (Node × List Event) :=
  match fromBytes data with
  | .error (.badFrame _) => .ok (n, [])
  | .error e => .error e
  | .ok pkt =>
    let r := n.flooder.onReceive pkt m.rssi clk.receive clk.draw
    let n' := { n with
      flooder := r.2
      stats := { n.stats with received := n.stats.received + 1 } }
    if pkt.type = typeAnnounce then handleAnnounce lib n' pkt m r.1 clk
    else .ok (n', [.packet pkt m r.1])

/-- The one exception that may leave `_handle` is that of packing a route. -/
theorem handle_eq {lib : CryptoLib} (hlib : lib.Documented) (n : Node) (data : Bytes)
    (m : FrameMeta) (clk : HandleClock) :
    handle lib n data m clk = match n.handle lib.crypto data m clk with
      | some r => .ok r
      | none => .error (.builtin .structError) := by
  unfold handle Node.handle
  rw [fromBytes_eq]
  cases Packet.fromBytes data with
  | error e => rfl
  | ok pkt =>
    dsimp only
    split_ifs with htype
    · unfold handleAnnounce Node.handleAnnounce
      split_ifs with hfirst hown
      · rw [parseAnnounce_eq hlib]
        cases Beachedmesh.parseAnnounce lib.crypto pkt.src pkt.payload <;> rfl
      · rfl
      · rfl
    · rfl

/-- What the node reads of the metadata. -/
def frameMeta (lm : LinkMeta) : FrameMeta := ⟨lm.srcMac, lm.rssi.map Int8.toInt⟩

/-- `got = self.link.recv()`, and `self._handle(*got)` if there is something. -/
def receive (lib : CryptoLib) (n : Node) (got : Option Bytes) (clk : HandleClock) :
    Except Raised (Node × List Event) :=
  match MonitorLink.recv got with
  | .error e => .error (.builtin e)
  | .ok none => .ok (n, [])
  | .ok (some (data, lm)) => handle lib n data (frameMeta lm) clk

end Raising

/-! ### What is packed fits -/

/-- A copy whose fields fit a hot entry. -/
structure Copy.Fits (c : Copy) : Prop where
  hops_lt : c.hops < 2 ^ 16
  rssi_ge : ∀ r, c.rssi = some r → -128 ≤ r
  rssi_le : ∀ r, c.rssi = some r → r ≤ 127

theorem Copy.Fits.getD {c : Copy} (h : c.Fits) :
    -128 ≤ c.rssi.getD noRssi ∧ c.rssi.getD noRssi ≤ 127 := by
  cases hr : c.rssi with
  | none => decide
  | some r => exact ⟨h.rssi_ge r hr, h.rssi_le r hr⟩

namespace RouteTable

theorem commit_isSome {t : RouteTable} {c : Copy} (hc : c.Fits) {now : ℚ} (h0 : 0 ≤ now)
    (hnow : now < 2 ^ 32) (mono : ℚ) : (t.commit c now mono).isSome := by
  have hseen : 0 ≤ pyInt now ∧ pyInt now < 2 ^ 32 := by
    rw [pyInt, if_pos h0]
    refine ⟨Int.floor_nonneg.mpr h0, Int.floor_lt.mpr ?_⟩
    exact_mod_cast hnow
  obtain ⟨hge, hle⟩ := hc.getD
  rw [commit, putHot, pack, dif_pos ⟨hc.hops_lt, hge, hle, hseen⟩]
  rfl

/-- Learning from a copy that fits raises nothing, at any time that fits. -/
theorem learn_isSome (t : RouteTable) {c : Copy} (hc : c.Fits) {now : ℚ} (h0 : 0 ≤ now)
    (hnow : now < 2 ^ 32) (mono : ℚ) : (t.learn c now mono).isSome := by
  unfold learn
  split_ifs with hown
  · rfl
  split
  · rw [Option.isSome_map]
    exact commit_isSome hc h0 hnow mono
  dsimp only
  split_ifs
  all_goals first
    | rfl
    | (rw [Option.isSome_map]; exact commit_isSome hc h0 hnow mono)

end RouteTable

/-- The hops and the signal of a received announce fit. -/
theorem Node.fits_copyOf {n : Node} (h0 : 0 ≤ n.hopLimit) (hmax : n.hopLimit ≤ maxHopLimit)
    {data : Bytes} {pkt : Packet} (hpkt : Packet.fromBytes data = .ok pkt) (lm : LinkMeta)
    (info : Option AnnounceInfo) : (n.copyOf pkt (Raising.frameMeta lm) info).Fits := by
  obtain ⟨q, hq, -, -, -, -, hhop, -⟩ := (Packet.accepted_of_fromBytes hpkt).fromBytes
  obtain rfl : pkt = q := Except.ok.inj (hpkt.symm.trans hq)
  refine ⟨?_, fun r hr => ?_, fun r hr => ?_⟩
  · simp only [maxHopLimit] at hmax
    simp only [copyOf]
    omega
  all_goals
    simp only [copyOf, Raising.frameMeta, Option.map_eq_some_iff] at hr
    obtain ⟨x, -, rfl⟩ := hr
  · exact x.le_toInt
  · exact Int.lt_add_one_iff.mp x.toInt_lt

theorem Node.handle_isSome (c : Crypto) {n : Node} (h0 : 0 ≤ n.hopLimit)
    (hmax : n.hopLimit ≤ maxHopLimit) (data : Bytes) (lm : LinkMeta) {clk : HandleClock}
    (hpos : 0 ≤ clk.now) (hnow : clk.now < 2 ^ 32) :
    (n.handle c data (Raising.frameMeta lm) clk).isSome := by
  unfold handle
  cases hp : Packet.fromBytes data with
  | error e => rfl
  | ok pkt =>
    have hlearn (f : Flooder) (s : NodeStats) (info : Option AnnounceInfo) (v : Verdict) :
        (learnFrom { n with flooder := f, stats := s } pkt (Raising.frameMeta lm) info v
          clk).isSome := by
      rw [learnFrom, Option.isSome_map]
      exact RouteTable.learn_isSome _ (fits_copyOf h0 hmax hp lm info) hpos hnow clk.mono
    dsimp only
    split_ifs with htype
    · unfold handleAnnounce
      split_ifs
      · cases parseAnnounce c pkt.src pkt.payload with
        | error e => rfl
        | ok info => exact hlearn _ _ _ _
      · rfl
      · exact hlearn _ _ _ _
    · rfl

/-- In every state that a node with a hop limit in range reaches, whatever the socket
returns, the receive path completes without an exception. -/
theorem receive_completes {lib : CryptoLib} (hlib : lib.Documented) (iface : String)
    (identity : Identity) (interval : ℚ) (name : String) (cold : Option ColdStore) {hopLimit : ℤ}
    (h0 : 0 ≤ hopLimit) (hmax : hopLimit ≤ maxHopLimit) (mono started : ℚ) {ops : List Node.Op}
    {n : Node} {ess : List (List Event)}
    (hx : exec (Node.step lib.crypto)
      (Node.new iface identity interval name cold hopLimit mono started) ops = some (n, ess))
    (got : Option Bytes) {clk : HandleClock} (hpos : 0 ≤ clk.now) (hnow : clk.now < 2 ^ 32) :
    ∃ r, Raising.receive lib n got clk = .ok r := by
  have hlimit : n.hopLimit = hopLimit := (Node.config_exec hx).hopLimit_eq
  obtain ⟨r, hr, -⟩ := MonitorLink.recv_cases got
  unfold Raising.receive
  rw [hr]
  cases r with
  | none => exact ⟨_, rfl⟩
  | some frame =>
    obtain ⟨data, lm⟩ := frame
    obtain ⟨r, hr⟩ := Option.isSome_iff_exists.mp (Node.handle_isSome lib.crypto
      (hlimit ▸ h0) (hlimit ▸ hmax) data lm hpos hnow)
    refine ⟨r, ?_⟩
    dsimp only
    rw [Raising.handle_eq hlib, hr]

/-- The library that the samples stand for: it rejects every signature but one. -/
def sampleLib : CryptoLib where
  sha256 := sampleCrypto.sha256
  verify key sig msg :=
    if key.length = keyLen then
      if sampleCrypto.verify key sig msg then .ok () else .error .invalidSignature
    else .error (.builtin (.valueError "An Ed25519 public key is 32 bytes long"))

theorem documented_sampleLib : sampleLib.Documented := by
  intro key sig msg hkey _
  simp only [sampleLib, if_pos hkey]
  split_ifs
  · exact Or.inl rfl
  · exact Or.inr rfl

/-- The genuine announce, with radiotap in front and a checksum behind. -/
theorem receive_completes_sample :
    ∃ r, Raising.receive sampleLib Node.sampleStart (some (sampleRadiotap ++
      (MonitorLink.mk "wlan2" (macOf 1) []).dot11 ++ (sampleAnnounce 3).frame ++ [1, 2, 3, 4]))
        (HandleClock.const 100) = .ok r :=
  receive_completes documented_sampleLib "wlan1" sampleIdentity announceInterval ""
    (some (ColdStore.new OrderedDict.empty 0)) (by decide) (by decide) 0 0
    (rfl : exec (Node.step sampleLib.crypto) Node.sampleStart [] = some (Node.sampleStart, []))
    _ (by decide) (by decide +kernel)

end Beachedmesh
