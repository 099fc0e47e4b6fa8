import Beachedmesh.Node

/-!
# The control socket

One line of JSON in, one line out, served from the packet loop. A request is
followed through `handle` and the command it names, and every exception on the
way is kept with its class: `poll` catches `OSError` and `ValueError`, and
nothing stands between it and the main loop. What the sockets do is an input.
-/
namespace Beachedmesh

def maxRoutes : ℤ := 500

/-! ### JSON values -/

inductive PyFloat where
  | finite (x : ℚ)
  | infinite (negative : Bool)
  | nan
  deriving DecidableEq

inductive Json where
  | null
  | bool (b : Bool)
  | int (i : ℤ)
  | float (x : PyFloat)
  | str (s : String)
  | arr (items : List Json)
  | obj (fields : List (String × Json))

namespace Json

/-- `d.get(key)`. -/
def field? (fields : List (String × Json)) (key : String) : Option Json := fields.lookup key

/-- `bool(v)`. -/
def truthy : Json → Bool
  | .null => false
  | .bool b => b
  | .int i => i ≠ 0
  | .float (.finite x) => x ≠ 0
  | .float _ => true
  | .str s => s ≠ ""
  | .arr items => !items.isEmpty
  | .obj fields => !fields.isEmpty

def ofRat (x : ℚ) : Json := .float (.finite x)

def ofOption : Option ℤ → Json
  | some i => .int i
  | none => .null

end Json

/-! ### Exceptions -/

/-- What can be raised while a request is served. -/
inductive Exn where
  | os
  | decode (data : Bytes)
  | json (raw : String)
  | literal (s : String)
  | digits (v : Json)
  | nan
  | infinite
  | notANumber (v : Json)
  | noGet (req : Json)
  | recursion
  | pack

/-- `OSError` and the kinds of `ValueError`. -/
def Exn.caught : Exn → Bool
  | .os => true
  | .decode _ => true
  | .json _ => true
  | .literal _ => true
  | .digits _ => true
  | .nan => true
  | .infinite => false
  | .notANumber _ => false
  | .noGet _ => false
  | .recursion => false
  | .pack => false

/-- What the language provides: `json.loads`, with `none` for its `ValueError`; the
formatting of a value that is not a string; the wording of an exception. -/
structure Runtime where
  loads : String → Option Json
  format : Json → Except Exn String
  text : Exn → String

/-! ### Strings and numbers -/

/-- `str.isspace`. -/
def isSpace (ch : Char) : Bool :=
  let x := ch.toNat
  (0x09 ≤ x && x ≤ 0x0D) || (0x1C ≤ x && x ≤ 0x20) || x == 0x85 || x == 0xA0 || x == 0x1680 ||
    (0x2000 ≤ x && x ≤ 0x200A) || x == 0x2028 || x == 0x2029 || x == 0x202F || x == 0x205F ||
    x == 0x3000

def stripChars (cs : List Char) : List Char :=
  ((cs.dropWhile isSpace).reverse.dropWhile isSpace).reverse

/-- `s.strip()`. -/
def strip (s : String) : String := String.ofList (stripChars s.toList)

/-- The white space that may stand around a number: `str.isspace` without the separators
U+001C to U+001F. -/
def isNumberSpace (ch : Char) : Bool := isSpace ch && ! (0x1C ≤ ch.toNat && ch.toNat ≤ 0x1F)

def stripNumber (cs : List Char) : List Char :=
  ((cs.dropWhile isNumberSpace).reverse.dropWhile isNumberSpace).reverse

/-- The zeros of the decimal digits that `int` reads. -/
def decimalZeros : List ℕ :=
  [0x30, 0x660, 0x6F0, 0x7C0, 0x966, 0x9E6, 0xA66, 0xAE6, 0xB66, 0xBE6, 0xC66, 0xCE6, 0xD66, 0xDE6,
    0xE50, 0xED0, 0xF20, 0x1040, 0x1090, 0x17E0, 0x1810, 0x1946, 0x19D0, 0x1A80, 0x1A90, 0x1B50,
    0x1BB0, 0x1C40, 0x1C50, 0xA620, 0xA8D0, 0xA900, 0xA9D0, 0xA9F0, 0xAA50, 0xABF0, 0xFF10, 0x104A0,
    0x10D30, 0x11066, 0x110F0, 0x11136, 0x111D0, 0x112F0, 0x11450, 0x114D0, 0x11650, 0x116C0,
    0x11730, 0x118E0, 0x11950, 0x11C50, 0x11D50, 0x11DA0, 0x16A60, 0x16AC0, 0x16B50, 0x1D7CE,
    0x1D7D8, 0x1D7E2, 0x1D7EC, 0x1D7F6, 0x1E140, 0x1E2F0, 0x1E950, 0x1FBF0]

def digit? (ch : Char) : Option ℕ :=
  (decimalZeros.find? fun z => z ≤ ch.toNat && ch.toNat < z + 10).map fun z => ch.toNat - z

/-- Digits with single underscores between them, at most 4300; `afterDigit` says whether
an underscore or the end may come now. -/
def readDigits (count value : ℕ) (afterDigit : Bool) : List Char → Option ℕ
  | [] => if afterDigit && count ≤ 4300 then some value else none
  | ch :: cs =>
    if ch = '_' then if afterDigit then readDigits count value false cs else none
    else (digit? ch).bind fun d => readDigits (count + 1) (10 * value + d) true cs

/-- `int(s)`, with `none` for its `ValueError`. -/
def readInt (s : String) : Option ℤ :=
  match stripNumber s.toList with
  | '-' :: cs => (readDigits 0 0 false cs).map fun n => -(n : ℤ)
  | '+' :: cs => (readDigits 0 0 false cs).map fun n => (n : ℤ)
  | cs => (readDigits 0 0 false cs).map fun n => (n : ℤ)

/-- `int(v)`. -/
def Json.toInt : Json → Except Exn ℤ
  | .null => .error (.notANumber .null)
  | .bool b => .ok (if b then 1 else 0)
  | .int i => .ok i
  | .float (.finite x) => .ok (pyInt x)
  | .float (.infinite _) => .error .infinite
  | .float .nan => .error .nan
  | .str s => match readInt s with
    | some i => .ok i
    | none => .error (.literal s)
  | .arr items => .error (.notANumber (.arr items))
  | .obj fields => .error (.notANumber (.obj fields))

def hexDigit (n : ℕ) : Char := if n < 10 then Char.ofNat (0x30 + n) else Char.ofNat (0x57 + n)

/-- `b.hex()`. -/
def hex (b : Bytes) : String :=
  String.ofList (b.flatMap fun x => [hexDigit (x.toNat / 16), hexDigit (x.toNat % 16)])

/-- `round(x, 1)`: to the nearest tenth, ties to the even one. -/
def roundTenth (x : ℚ) : ℚ :=
  let n := ⌊10 * x⌋
  let rest := 10 * x - n
  (if rest < 1 / 2 ∨ (rest = 1 / 2 ∧ n % 2 = 0) then n else n + 1) / 10

/-! ### Requests -/

/-- What a client and the sockets do, and what the clocks read meanwhile: `recv` is `none`
when it raises; the flags say which calls return. -/
structure Connection where
  settimeout : Bool
  recv : Option Bytes
  reply : Bool
  errorReply : Bool
  close : Bool
  radio : Bool
  draw : AnnounceDraw
  wall : ℚ
  mono : ℚ

namespace Node

def status (n : Node) (k : Connection) : Json :=
  .obj [("node_id", .str (hex n.identity.nodeId)),
    ("name", .str n.name),
    ("iface", .str n.iface),
    ("uptime", .ofRat (k.wall - n.started)),
    ("hot_routes", .int n.routes.hot.size),
    ("neighbours", .int n.routes.neighbours.length),
    ("received", .int n.stats.received),
    ("sent", .int n.stats.sent),
    ("announces_sent", .int n.stats.announces),
    ("rejected", .int n.stats.rejected),
    ("relayed", .int n.flooder.stats.relayed),
    ("cancelled", .int n.flooder.stats.cancelled),
    ("duplicates", .int n.flooder.stats.duplicates),
    ("seen_cache", .int n.flooder.seen.d.size),
    ("next_announce", .ofRat (max 0 (n.nextAnnounce - k.mono)))]

end Node

namespace Control

def routeLine (wall : ℚ) (r : Route) : Json :=
  .obj [("node_id", .str (hex r.nodeId)),
    ("next_hop", .str (hex r.nextHop)),
    ("hops", .int r.hops),
    ("rssi", .ofOption r.rssi),
    ("age", .ofRat (roundTenth (wall - r.lastSeen)))]

/-- The loop of `_cmd_routes`, `count` lines in: it stops once the limit is reached, so
after one line for a limit of 0 or less. -/
def routeLines (wall : ℚ) (limit : ℤ) (wantNeighbours : Bool) : ℕ → List Route → List Json
  | _, [] => []
  | count, r :: rs =>
    if wantNeighbours && !r.isNeighbour then routeLines wall limit wantNeighbours count rs
    else if (count : ℤ) + 1 ≥ limit then [routeLine wall r]
    else routeLine wall r :: routeLines wall limit wantNeighbours (count + 1) rs

def cmdRoutes (n : Node) (fields : List (String × Json)) (k : Connection) : Except Exn Json :=
  match ((Json.field? fields "limit").getD (.int 40)).toInt with
  | .error e => .error e
  | .ok asked =>
    let limit := min asked maxRoutes
    let wantNeighbours := ((Json.field? fields "neighbours").getD (.bool false)).truthy
    let out := routeLines k.wall limit wantNeighbours 0 n.routes.toList
    .ok (.obj [("routes", .arr out),
      ("hot", .int n.routes.hot.size),
      ("max_hot", .int n.routes.maxHot),
      ("memory_bytes", .int n.routes.memoryBytes),
      ("truncated", .bool (n.routes.hot.size > out.length))])

def pendingLine (mono : ℚ) (p : Pending) : Json :=
  .obj [("src", .str (hex p.packet.src)),
    ("packet_id", .str (hex p.packet.packetId)),
    ("hops_left", .int p.packet.hopLimit),
    ("heard", .int p.heard),
    ("in_ms", .ofRat (roundTenth ((p.sendAt - mono) * 1000)))]

def cmdFlood (n : Node) (k : Connection) : Json :=
  let f := n.flooder
  .obj [("relayed", .int f.stats.relayed),
    ("cancelled", .int f.stats.cancelled),
    ("duplicates", .int f.stats.duplicates),
    ("expired_hops", .int f.stats.expiredHops),
    ("pending", .int f.pending.size),
    ("seen_cache", .int f.seen.d.size),
    ("seen_capacity", .int f.seen.capacity),
    ("threshold", .int f.threshold),
    ("pending_detail", .arr ((f.pending.entries.take 20).map fun e => pendingLine k.mono e.2))]

/-- Send an announce now rather than waiting for the timer. -/
def cmdAnnounce (n : Node) (k : Connection) : Node × Except Exn Json :=
  match n.sendAnnounce k.draw k.radio with
  | (n', .error .structError) => (n', .error .pack)
  | (n', .error .osError) => (n', .error .os)
  | (n', .ok (pkt, _)) =>
    (n', .ok (.obj [("sent", .bool true),
      ("packet_id", .str (hex pkt.packetId)),
      ("bytes", .int (headerLen + pkt.payload.length))]))

/-- The text that names the command: `f"{cmd}"`. -/
def commandText (E : Runtime) (fields : List (String × Json)) : Except Exn String :=
  match (Json.field? fields "cmd").getD (.str "status") with
  | .str s => .ok s
  | v => E.format v

def handle (E : Runtime) (n : Node) (req : Json) (k : Connection) : Node × Except Exn Json :=
  match req with
  | .obj fields =>
    match commandText E fields with
    | .error e => (n, .error e)
    | .ok cmd =>
      if cmd = "status" then (n, .ok (n.status k))
      else if cmd = "routes" then (n, cmdRoutes n fields k)
      else if cmd = "flood" then (n, .ok (cmdFlood n k))
      else if cmd = "announce" then cmdAnnounce n k
      else (n, .ok (.obj [("error", .str ("unknown command: " ++ cmd))]))
  | req => (n, .error (.noGet req))

/-- The request that a line of text stands for; an empty line asks for nothing. -/
def parse (E : Runtime) (raw : String) : Option Json :=
  if raw = "" then some (.obj []) else E.loads raw

/-- The body of the `try`, up to the reply. -/
def request (E : Runtime) (n : Node) (k : Connection) : Node × Except Exn Json :=
  if k.settimeout = false then (n, .error .os)
  else
    match k.recv with
    | none => (n, .error .os)
    | some data =>
      match String.fromUTF8? ⟨data.toArray⟩ with
      | none => (n, .error (.decode data))
      | some text =>
        match parse E (strip text) with
        | none => (n, .error (.json (strip text)))
        | some req => handle E n req k

/-- The `except` clause: an error that fails to go out is dropped. -/
def refuse (E : Runtime) (k : Connection) (e : Exn) : Except Exn (Option Json) :=
  if e.caught then
    .ok (if k.errorReply then some (.obj [("error", .str (E.text e))]) else none)
  else .error e

/-- One connection: the reply that went out, or the exception that escapes. An exception of
the `close` in `finally` replaces any other outcome. -/
def serve (E : Runtime) (n : Node) (k : Connection) : Node × Except Exn (Option Json) :=
  let r := request E n k
  let body := match r.2 with
    | .ok resp => if k.reply then .ok (some resp) else refuse E k .os
    | .error e => refuse E k e
  (r.1, if k.close then body else .error .os)

/-- Serve the waiting connections in order, until `accept` raises. -/
def serveAll (E : Runtime) : Node → List Connection → Node × Except Exn (List (Option Json))
  | n, [] => (n, .ok [])
  | n, k :: ks =>
    match serve E n k with
    | (n', .error e) => (n', .error e)
    | (n', .ok r) => ((serveAll E n' ks).1, (serveAll E n' ks).2.map fun rs => r :: rs)

/-- `ControlServer.poll`; without a socket it does nothing. -/
def poll (E : Runtime) (listening : Bool) (n : Node) (ks : List Connection) :
    Node × Except Exn (List (Option Json)) :=
  if listening then serveAll E n ks else (n, .ok [])

/-! ### What a request must not be -/

/-- The outcome does not leave `poll`. -/
def Stays {α : Type} (r : Except Exn α) : Prop := ∀ e, r = .error e → e.caught = true

theorem stays_ok {α : Type} (a : α) : Stays (.ok a : Except Exn α) := by
  intro e he
  cases he

theorem stays_error_iff {α : Type} {e : Exn} :
    Stays (.error e : Except Exn α) ↔ e.caught = true :=
  ⟨fun h => h e rfl, fun h _ he => Except.error.inj he ▸ h⟩

/-- The values that `int` refuses with something other than a `ValueError`. -/
def Refuses : Json → Prop
  | .null => True
  | .float (.infinite _) => True
  | .arr _ => True
  | .obj _ => True
  | _ => False

/-- An object whose command is one the node can serve: the limit of `routes` is a number, a
string or a boolean and not infinite, and `announce` is asked of a hop limit that fits. -/
def HarmlessRequest (E : Runtime) (hopLimit : ℤ) : Json → Prop
  | .obj fields =>
    match commandText E fields with
    | .error e => e.caught = true
    | .ok cmd =>
      (cmd = "routes" → ¬ Refuses ((Json.field? fields "limit").getD (.int 40))) ∧
        (cmd = "announce" → 0 ≤ hopLimit ∧ hopLimit ≤ maxHopLimit)
  | _ => False

/-- What the client sent got through as the request `req`. -/
def Asks (E : Runtime) (k : Connection) (req : Json) : Prop :=
  ∃ data text, k.settimeout = true ∧ k.recv = some data ∧
    String.fromUTF8? ⟨data.toArray⟩ = some text ∧ parse E (strip text) = some req

/-- What the client sent is dropped before it is a request, or is a harmless one. -/
def Harmless (E : Runtime) (hopLimit : ℤ) (k : Connection) : Prop :=
  ∀ req, Asks E k req → HarmlessRequest E hopLimit req

theorem Asks.unique {E : Runtime} {k : Connection} {req req' : Json} (h : Asks E k req)
    (h' : Asks E k req') : req' = req := by
  obtain ⟨data, text, -, hdata, htext, hreq⟩ := h
  obtain ⟨data', text', -, hdata', htext', hreq'⟩ := h'
  cases hdata.symm.trans hdata'
  cases htext.symm.trans htext'
  exact Option.some.inj (hreq'.symm.trans hreq)

/-- Either a request gets through and is handled, or an error that `poll` catches comes
before it. -/
theorem request_cases (E : Runtime) (n : Node) (k : Connection) :
    (∃ req, Asks E k req ∧ request E n k = handle E n req k) ∨
      ((∀ req, ¬ Asks E k req) ∧ ∃ e, e.caught = true ∧ request E n k = (n, .error e)) := by
  unfold request
  cases hset : k.settimeout with
  | false =>
    refine Or.inr ⟨?_, .os, rfl, rfl⟩
    rintro req ⟨_, _, h, -⟩
    exact absurd (hset.symm.trans h) (by decide)
  | true =>
    rw [if_neg (by decide)]
    cases hrecv : k.recv with
    | none =>
      refine Or.inr ⟨?_, .os, rfl, rfl⟩
      rintro req ⟨_, _, -, h, -⟩
      cases hrecv.symm.trans h
    | some data =>
      dsimp only
      cases htext : String.fromUTF8? ⟨data.toArray⟩ with
      | none =>
        refine Or.inr ⟨?_, .decode data, rfl, rfl⟩
        rintro req ⟨_, _, -, h, h', -⟩
        cases hrecv.symm.trans h
        cases htext.symm.trans h'
      | some text =>
        dsimp only
        cases hreq : parse E (strip text) with
        | none =>
          refine Or.inr ⟨?_, .json (strip text), rfl, rfl⟩
          rintro req ⟨_, _, -, h, h', h''⟩
          cases hrecv.symm.trans h
          cases htext.symm.trans h'
          cases hreq.symm.trans h''
        | some req => exact Or.inl ⟨req, ⟨data, text, hset, hrecv, htext, hreq⟩, rfl⟩

theorem stays_toInt_iff (v : Json) : Stays v.toInt ↔ ¬ Refuses v := by
  cases v with
  | null => simp [Json.toInt, stays_error_iff, Exn.caught, Refuses]
  | bool b => simp [Json.toInt, stays_ok, Refuses]
  | int i => simp [Json.toInt, stays_ok, Refuses]
  | float x =>
    cases x with
    | finite x => simp [Json.toInt, stays_ok, Refuses]
    | infinite negative => simp [Json.toInt, stays_error_iff, Exn.caught, Refuses]
    | nan => simp [Json.toInt, stays_error_iff, Exn.caught, Refuses]
  | str s =>
    cases h : readInt s with
    | none => simp [Json.toInt, h, stays_error_iff, Exn.caught, Refuses]
    | some i => simp [Json.toInt, h, stays_ok, Refuses]
  | arr items => simp [Json.toInt, stays_error_iff, Exn.caught, Refuses]
  | obj fields => simp [Json.toInt, stays_error_iff, Exn.caught, Refuses]

theorem stays_cmdRoutes_iff (n : Node) (fields : List (String × Json)) (k : Connection) :
    Stays (cmdRoutes n fields k) ↔ ¬ Refuses ((Json.field? fields "limit").getD (.int 40)) := by
  rw [← stays_toInt_iff]
  unfold cmdRoutes
  cases ((Json.field? fields "limit").getD (.int 40)).toInt with
  | error e => simp [stays_error_iff]
  | ok i => simp [stays_ok]

/-- An announce of the node packs exactly when its hop limit fits the field. -/
theorem toBytes_announcePacket (n : Node) (d : AnnounceDraw) :
    (n.announcePacket d).toBytes.isSome ↔ 0 ≤ n.hopLimit ∧ n.hopLimit ≤ maxHopLimit := by
  rw [Packet.toBytes_isSome_iff]
  simp [Node.announcePacket, version, typeAnnounce, flagNoAck]

theorem stays_cmdAnnounce_iff (n : Node) (k : Connection) :
    Stays (cmdAnnounce n k).2 ↔ 0 ≤ n.hopLimit ∧ n.hopLimit ≤ maxHopLimit := by
  rw [← toBytes_announcePacket n k.draw]
  unfold cmdAnnounce Node.sendAnnounce
  dsimp only
  cases (n.announcePacket k.draw).toBytes with
  | none => simp [stays_error_iff, Exn.caught]
  | some b => cases k.radio <;> simp [stays_error_iff, stays_ok, Exn.caught]

theorem stays_handle_iff (E : Runtime) (n : Node) (req : Json) (k : Connection) :
    Stays (handle E n req k).2 ↔ HarmlessRequest E n.hopLimit req := by
  cases req with
  | obj fields =>
    simp only [handle, HarmlessRequest]
    cases commandText E fields with
    | error e => exact stays_error_iff
    | ok cmd =>
      dsimp only
      split_ifs with h₁ h₂ h₃ h₄
      · simp [h₁, stays_ok]
      · simp [h₂, stays_cmdRoutes_iff]
      · simp [h₃, stays_ok]
      · simp [h₄, stays_cmdAnnounce_iff]
      · simp [h₂, h₄, stays_ok]
  | null => simp [handle, HarmlessRequest, stays_error_iff, Exn.caught]
  | bool b => simp [handle, HarmlessRequest, stays_error_iff, Exn.caught]
  | int i => simp [handle, HarmlessRequest, stays_error_iff, Exn.caught]
  | float x => simp [handle, HarmlessRequest, stays_error_iff, Exn.caught]
  | str t => simp [handle, HarmlessRequest, stays_error_iff, Exn.caught]
  | arr items => simp [handle, HarmlessRequest, stays_error_iff, Exn.caught]

theorem stays_request_iff (E : Runtime) (n : Node) (k : Connection) :
    Stays (request E n k).2 ↔ Harmless E n.hopLimit k := by
  rcases request_cases E n k with ⟨req, hasks, heq⟩ | ⟨hnone, e, he, heq⟩
  · rw [heq, stays_handle_iff]
    constructor
    · intro h req' hasks'
      rw [hasks.unique hasks']
      exact h
    · intro h
      exact h req hasks
  · rw [heq, stays_error_iff]
    exact ⟨fun _ req hasks => absurd hasks (hnone req), fun _ => he⟩

/-- Serving returns exactly when the request stays inside and the socket closes. -/
theorem serve_returns_iff (E : Runtime) (n : Node) (k : Connection) :
    (∃ r, (serve E n k).2 = .ok r) ↔ k.close = true ∧ Harmless E n.hopLimit k := by
  rw [← stays_request_iff E n k]
  have hrefuse (e : Exn) : (∃ r, refuse E k e = .ok r) ↔ e.caught = true := by
    unfold refuse
    split_ifs with h <;> simp [h]
  unfold serve
  dsimp only
  cases hclose : k.close with
  | false => simp
  | true =>
    rw [if_pos rfl, and_iff_right rfl]
    cases (request E n k).2 with
    | error e => exact (hrefuse e).trans stays_error_iff.symm
    | ok resp =>
      refine iff_of_true ?_ (stays_ok resp)
      cases k.reply with
      | true => exact ⟨some resp, rfl⟩
      | false => exact (hrefuse .os).mpr rfl

/-- No request changes the hop limit. -/
theorem hopLimit_handle (E : Runtime) (n : Node) (req : Json) (k : Connection) :
    (handle E n req k).1.hopLimit = n.hopLimit := by
  have hann : (cmdAnnounce n k).1.hopLimit = n.hopLimit := by
    have hedge := (Node.edge_sendAnnounce n k.draw k.radio).1.hopLimit_eq
    unfold cmdAnnounce
    split <;> simp_all
  unfold handle
  split
  · split
    · rfl
    · split_ifs
      · rfl
      · rfl
      · rfl
      · exact hann
      · rfl
  · rfl

theorem hopLimit_serve (E : Runtime) (n : Node) (k : Connection) :
    (serve E n k).1.hopLimit = n.hopLimit := by
  show (request E n k).1.hopLimit = n.hopLimit
  rcases request_cases E n k with ⟨req, -, heq⟩ | ⟨-, e, -, heq⟩
  · rw [heq]
    exact hopLimit_handle E n req k
  · rw [heq]

theorem serveAll_returns_iff (E : Runtime) (n : Node) (ks : List Connection) :
    (∃ rs, (serveAll E n ks).2 = .ok rs) ↔
      ∀ k ∈ ks, k.close = true ∧ Harmless E n.hopLimit k := by
  induction ks generalizing n with
  | nil => simp [serveAll]
  | cons k ks ih =>
    have hone := serve_returns_iff E n k
    have hhop := hopLimit_serve E n k
    unfold serveAll
    rcases hserve : serve E n k with ⟨n', e | r⟩
    · rw [hserve] at hone
      simp only [reduceCtorEq, exists_false, false_iff] at hone ⊢
      intro hall
      exact hone (hall k (by simp))
    · rw [hserve] at hone hhop
      have hk := hone.mp ⟨r, rfl⟩
      have hmap : (∃ rs, (serveAll E n' ks).2.map (fun rs => r :: rs) = .ok rs) ↔
          ∃ rs, (serveAll E n' ks).2 = .ok rs := by
        cases (serveAll E n' ks).2 <;> simp [Except.map]
      rw [List.forall_mem_cons]
      refine hmap.trans ((ih n').trans ?_)
      rw [show n'.hopLimit = n.hopLimit from hhop]
      exact ⟨fun h => ⟨hk, h⟩, fun h => h.2⟩

/-- A client that sends the line `[]`, over sockets that raise nothing. -/
def sampleClient : Connection :=
  ⟨true, some [0x5B, 0x5D, 0x0A], true, true, true, true,
    ⟨⟨sampleRandom, by decide⟩, packetIdOf 2, 0, 0⟩, 0, 0⟩

/-- Enough of the language to read that line. -/
def sampleRuntime : Runtime where
  loads s := if s = "[]" then some (.arr []) else none
  format _ := .ok ""
  text _ := ""

end Control

/-- `poll` returns to the main loop exactly when there is no socket, or every connection
closes without error and its client sent nothing or something harmless. -/
theorem poll_returns_iff (E : Runtime) (listening : Bool) (n : Node) (ks : List Connection) :
    (∃ rs, (Control.poll E listening n ks).2 = .ok rs) ↔
      (listening = true → ∀ k ∈ ks, k.close = true ∧ Control.Harmless E n.hopLimit k) := by
  cases listening with
  | false => simp [Control.poll]
  | true => simpa [Control.poll] using Control.serveAll_returns_iff E n ks

/-- An array is no request: the exception of `req.get` escapes. -/
theorem poll_can_raise :
    ∃ E k, k.close = true ∧ ¬ ∃ rs, (Control.poll E true Node.sampleStart [k]).2 = .ok rs := by
  refine ⟨Control.sampleRuntime, Control.sampleClient, rfl, ?_⟩
  have htext : String.fromUTF8? ⟨#[0x5B, 0x5D, 0x0A]⟩ = some "[]\n" := by decide +kernel
  have hparse : Control.parse Control.sampleRuntime (strip "[]\n") = some (.arr []) := by
    rw [show strip "[]\n" = "[]" by decide +kernel]
    rfl
  have hasks : Control.Asks Control.sampleRuntime Control.sampleClient (.arr []) :=
    ⟨_, _, rfl, rfl, htext, hparse⟩
  rw [Control.poll, if_pos rfl, Control.serveAll_returns_iff]
  intro h
  exact (h _ (List.mem_singleton.mpr rfl)).2 _ hasks

end Beachedmesh
