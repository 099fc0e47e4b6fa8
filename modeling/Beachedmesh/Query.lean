import Beachedmesh.Control
import Beachedmesh.Support.Machine
import Beachedmesh.Support.Pieces
import Mathlib.Data.List.DropRight

/-!
# A query and its answer

The tools ask the daemon over the control socket: a line of JSON each way. The daemon takes
what one `recv` returns for the whole request; the client collects the reply until its
line ends. So a reply may come in any pieces, and a request must come in one.
-/
namespace Beachedmesh
open Pieces Machine

/-! ### The client -/

/-- What `query` raises: `ConnectionError`, or what decoding and parsing raise. -/
inductive QueryError where
  | noDaemon
  | connection
  | decode (data : Bytes)
  | json (raw : String)

/-- `s.encode()`. -/
def encodeText (cs : List Char) : Bytes := cs.flatMap String.utf8EncodeChar

/-- What the client's calls meet: whether the socket exists, whether connecting and sending
succeed, and what each `recv` returns. -/
structure Client where
  present : Bool
  connects : Bool
  sends : Bool
  reads : List (Option Bytes)

/-- `query`, from the reply on. -/
def Client.answer (E : Runtime) (data : Bytes) : Except QueryError Json :=
  match String.fromUTF8? ⟨data.toArray⟩ with
  | none => .error (.decode data)
  | some text =>
    match E.loads text with
    | none => .error (.json text)
    | some v => .ok v

def Client.query (E : Runtime) (q : Client) : Except QueryError Json :=
  if q.present = false then .error .noDaemon
  else if q.connects = false ∨ q.sends = false then .error .connection
  else
    match collect 0x0A [] q.reads with
    | none => .error .connection
    | some data => Client.answer E data

/-- What `query` sends. -/
def queryRequest (cmd : String) (kw : List (String × Json)) : Json := .obj (("cmd", .str cmd) :: kw)

/-! ### Texts -/

/-- The text is what `json.dumps` writes for the object: plain characters between braces, that
`json.loads` reads back, with a newline behind it too, and reads nothing of when they
are cut off. -/
structure Spells (E : Runtime) (v : Json) (text : List Char) : Prop where
  ascii : ∀ c ∈ text, 0x20 ≤ c.toNat ∧ c.toNat < 0x80
  braces : ∃ inner, text = '{' :: (inner ++ ['}'])
  loads : E.loads (String.ofList text) = some v
  newline : E.loads (String.ofList (text ++ ['\n'])) = some v
  cut : ∀ t, t <+: text → t ≠ text → E.loads (String.ofList t) = none

/-- The line on the wire. -/
def wireLine (text : List Char) : Bytes := encodeText (text ++ ['\n'])

theorem fromUTF8?_encodeText (cs : List Char) :
    String.fromUTF8? ⟨(encodeText cs).toArray⟩ = some (String.ofList cs) := by
  have hbytes : (⟨(encodeText cs).toArray⟩ : ByteArray) = cs.utf8Encode := by
    rw [List.utf8Encode, encodeText]
    apply ByteArray.ext
    rw [List.data_toByteArray]
  rw [hbytes, String.fromUTF8?, dif_pos ByteArray.isValidUTF8_utf8Encode]
  rfl

/-- One byte for each plain character, and for the newline. -/
def byteOf (c : Char) : UInt8 := UInt8.ofNat c.toNat

theorem encodeText_eq_map {cs : List Char} (h : ∀ c ∈ cs, c.toNat < 0x80) :
    encodeText cs = cs.map byteOf := by
  induction cs with
  | nil => rfl
  | cons c cs ih =>
    have hc : String.utf8EncodeChar c = [byteOf c] := by
      have hlt : c.val.toNat < 0x80 := h c (by simp)
      exact if_pos (show c.val.toNat ≤ 0x7F by omega)
    rw [encodeText, List.flatMap_cons, hc, List.map_cons, List.singleton_append]
    exact congrArg _ (ih fun d hd => h d (List.mem_cons_of_mem c hd))

variable {E : Runtime} {v req resp : Json} {text : List Char} {data : Bytes}

theorem Spells.lt_of_mem_line (h : Spells E v text) : ∀ c ∈ text ++ ['\n'], c.toNat < 0x80 := by
  intro c hc
  rcases List.mem_append.mp hc with hc | hc
  · have hlt := (h.ascii c hc).2
    omega
  · obtain rfl := List.mem_singleton.mp hc
    decide

/-- Whatever part of the line arrives is the line of a part of the text. -/
theorem Spells.part (h : Spells E v text) (hdata : data <+: wireLine text) :
    ∃ t, t <+: text ++ ['\n'] ∧ data = encodeText t ∧ data.length = t.length := by
  have hline := h.lt_of_mem_line
  rw [wireLine, encodeText_eq_map hline, List.prefix_map_iff] at hdata
  obtain ⟨t, ht, rfl⟩ := hdata
  refine ⟨t, ht, (encodeText_eq_map fun c hc => hline c (ht.subset hc)).symm, ?_⟩
  exact List.length_map _

theorem stripChars_eq_rdropWhile {c : Char} {cs : List Char} (hc : isSpace c = false) :
    stripChars (c :: cs) = List.rdropWhile isSpace (c :: cs) := by
  rw [stripChars, List.dropWhile_cons_of_neg (by simp [hc])]
  rfl

/-- A part of the text that does not reach its end is still not the text when it is
stripped, and not empty. -/
theorem Spells.strip_cut (h : Spells E v text) {t : List Char} (ht : t <+: text) (hne : t ≠ [])
    (hlt : t.length < text.length) :
    stripChars t ≠ [] ∧ stripChars t <+: text ∧ stripChars t ≠ text := by
  obtain ⟨inner, rfl⟩ := h.braces
  cases t with
  | nil => exact absurd rfl hne
  | cons c t =>
    obtain ⟨rfl, -⟩ := List.cons_prefix_cons.mp ht
    rw [stripChars_eq_rdropWhile (by decide)]
    have hpart := List.rdropWhile_prefix isSpace ('{' :: t)
    refine ⟨fun hnil => ?_, hpart.trans ht, fun heq => ?_⟩
    · have hspace := List.rdropWhile_eq_nil_iff.mp hnil '{' (by simp)
      exact absurd hspace (by decide)
    · have hlen := hpart.length_le
      rw [heq] at hlen
      omega

theorem Spells.strip_whole (h : Spells E v text) {t : List Char} (ht : t <+: text ++ ['\n'])
    (hle : text.length ≤ t.length) : stripChars t = text := by
  have hcases : t = text ∨ t = text ++ ['\n'] := by
    rcases List.prefix_concat_iff.mp ht with heq | hpart
    · exact Or.inr heq
    · exact Or.inl (hpart.eq_of_length_le hle)
  obtain ⟨inner, rfl⟩ := h.braces
  have hend : List.rdropWhile isSpace ('{' :: (inner ++ ['}'])) = '{' :: (inner ++ ['}']) := by
    rw [← List.cons_append]
    exact List.rdropWhile_concat_neg _ _ _ (by decide)
  rcases hcases with rfl | rfl
  · rw [stripChars_eq_rdropWhile (by decide), hend]
  · rw [List.cons_append, stripChars_eq_rdropWhile (by decide), ← List.cons_append,
      List.rdropWhile_concat_pos _ _ _ (by decide), hend]

/-! ### The daemon's side -/

variable {n n' : Node} {k : Connection}

/-- A request that arrives whole, its newline or not, is handled. -/
theorem request_whole (h : Spells E req text) (hset : k.settimeout = true)
    (hrecv : k.recv = some data) (hdata : data <+: wireLine text)
    (hle : text.length ≤ data.length) : Control.request E n k = Control.handle E n req k := by
  obtain ⟨t, ht, rfl, hlen⟩ := h.part hdata
  have hstrip : strip (String.ofList t) = String.ofList text := by
    rw [strip, String.toList_ofList, h.strip_whole ht (by omega)]
  have hne : String.ofList text ≠ "" := by
    obtain ⟨inner, rfl⟩ := h.braces
    intro hempty
    have hlist := congrArg String.toList hempty
    simp at hlist
  have hparse : Control.parse E (String.ofList text) = some req := by
    rw [Control.parse, if_neg hne, h.loads]
  rw [Control.request, if_neg (by simp [hset]), hrecv]
  simp only [fromUTF8?_encodeText, hstrip, hparse]

/-- One that does not is refused, and leaves the node as it is. -/
theorem request_cut (h : Spells E req text) (hset : k.settimeout = true)
    (hrecv : k.recv = some data) (hdata : data <+: wireLine text) (hne : data ≠ [])
    (hlt : data.length < text.length) :
    ∃ raw, Control.request E n k = (n, .error (.json raw)) := by
  obtain ⟨t, ht, rfl, hlen⟩ := h.part hdata
  have hpart : t <+: text := by
    rcases List.prefix_concat_iff.mp ht with rfl | hpart
    · rw [List.length_append] at hlen
      omega
    · exact hpart
  have htne : t ≠ [] := by
    rintro rfl
    exact hne rfl
  obtain ⟨hsome, hstripped, hother⟩ := h.strip_cut hpart htne (by omega)
  refine ⟨strip (String.ofList t), ?_⟩
  have hparse : Control.parse E (strip (String.ofList t)) = none := by
    have hstrip : strip (String.ofList t) = String.ofList (stripChars t) := by
      rw [strip, String.toList_ofList]
    have hnonempty : String.ofList (stripChars t) ≠ "" := by
      intro hempty
      have hlist := congrArg String.toList hempty
      rw [String.toList_ofList] at hlist
      exact hsome hlist
    rw [hstrip, Control.parse, if_neg hnonempty]
    exact h.cut _ hstripped hother
  rw [Control.request, if_neg (by simp [hset]), hrecv]
  simp only [fromUTF8?_encodeText, hparse]

/-! ### The client's side -/

theorem newline_not_mem_encodeText (h : Spells E v text) : (0x0A : UInt8) ∉ encodeText text := by
  have hline := h.lt_of_mem_line
  rw [encodeText_eq_map fun c hc => hline c (List.mem_append_left _ hc), List.mem_map]
  rintro ⟨c, hc, heq⟩
  obtain ⟨hlo, hhi⟩ := h.ascii c hc
  have hnat := congrArg UInt8.toNat heq
  rw [byteOf, UInt8.toNat_ofNat'] at hnat
  have hten : (0x0A : UInt8).toNat = 10 := rfl
  omega

theorem wireLine_eq (text : List Char) : wireLine text = encodeText text ++ [0x0A] := by
  rw [wireLine, encodeText, List.flatMap_append]
  rfl

/-- What the client makes of a part of the reply: the value once all of the text is
there, and an exception before. -/
theorem answer_part (h : Spells E v text) (hdata : data <+: wireLine text) :
    Client.answer E data =
      if text.length ≤ data.length then .ok v
      else .error (.json (String.ofList (text.take data.length))) := by
  obtain ⟨t, ht, rfl, hlen⟩ := h.part hdata
  rw [Client.answer, fromUTF8?_encodeText, hlen]
  rcases List.prefix_concat_iff.mp ht with rfl | hpart
  · rw [if_pos (by simp)]
    simp only [h.newline]
  · split_ifs with hle
    · rw [hpart.eq_of_length_le hle]
      simp only [h.loads]
    · have hne : t ≠ text := by
        rintro rfl
        exact hle le_rfl
      rw [← List.prefix_iff_eq_take.mp hpart]
      simp only [h.cut t hpart hne]

/-- The client of an answer that comes: no matter how it is cut. -/
theorem query_line (h : Spells E v text) {q : Client} (hpresent : q.present = true)
    (hconnects : q.connects = true) (hsends : q.sends = true) {pieces : List Bytes}
    (hne : ∀ p ∈ pieces, p ≠ []) (hpieces : pieces.flatten = wireLine text)
    {rest : List (Option Bytes)} (hreads : q.reads = pieces.map some ++ rest) :
    q.query E = .ok v := by
  have hmore : pieces ≠ [] := by
    rintro rfl
    rw [wireLine_eq] at hpieces
    simp at hpieces
  rw [wireLine_eq] at hpieces
  have hcollect : collect 0x0A [] (pieces.map some ++ rest) = some (encodeText text ++ [0x0A]) :=
    collect_line (newline_not_mem_encodeText h) hne hpieces hmore rest
  rw [Client.query, if_neg (by simp [hpresent]), if_neg (by simp [hconnects, hsends]), hreads,
    hcollect]
  rw [← wireLine_eq]
  dsimp only
  rw [answer_part h (List.prefix_refl _), if_pos]
  rw [wireLine, encodeText_eq_map h.lt_of_mem_line]
  simp

/-! ### Both sides -/

/-- The client reaches the daemon, and the stream brings all of the line, in any pieces. -/
def Client.Delivered (q : Client) (line : Bytes) : Prop :=
  q.present = true ∧ q.connects = true ∧ q.sends = true ∧
    ∃ (pieces : List Bytes) (rest : List (Option Bytes)),
      (∀ p ∈ pieces, p ≠ []) ∧ pieces.flatten = line ∧ q.reads = pieces.map some ++ rest

/-- The client gets the value if all of the line reaches it, and nothing but the value if no
more than the line does. -/
def Client.Gets (E : Runtime) (q : Client) (v : Json) (line : Bytes) : Prop :=
  (q.Delivered line → q.query E = .ok v) ∧
    (brought q.reads <+: line → ∀ u, q.query E = .ok u → u = v)

theorem Spells.gets (h : Spells E v text) (q : Client) : q.Gets E v (wireLine text) := by
  constructor
  · rintro ⟨hpresent, hconnects, hsends, pieces, rest, hne, hpieces, hreads⟩
    exact query_line h hpresent hconnects hsends hne hpieces hreads
  · intro hbrought u hu
    unfold Client.query at hu
    split_ifs at hu
    cases hcollect : collect 0x0A [] q.reads with
    | none =>
      rw [hcollect] at hu
      cases hu
    | some data =>
      rw [hcollect] at hu
      dsimp only at hu
      have hpart : data <+: wireLine text := (collect_brought hcollect).trans hbrought
      rw [answer_part h hpart] at hu
      split_ifs at hu
      exact (Except.ok.inj hu).symm

/-- The request comes in one piece, its newline or not, and the reply goes out. -/
def Arrives (E : Runtime) (req : Json) (k : Connection) : Prop :=
  k.settimeout = true ∧ k.reply = true ∧ k.close = true ∧ ∃ text data, Spells E req text ∧
    k.recv = some data ∧ data <+: wireLine text ∧ text.length ≤ data.length

/-- The commands apart from the socket: one request after another. -/
def Control.answer (E : Runtime) (n : Node) (a : Json × Connection) : Option (Node × Json) :=
  match Control.handle E n a.1 a.2 with
  | (n', .ok resp) => some (n', resp)
  | (_, .error _) => none

theorem serve_of_arrives (h : Arrives E req k) (hanswer : Control.answer E n (req, k) =
    some (n', resp)) : Control.serve E n k = (n', .ok (some resp)) := by
  obtain ⟨hset, hreply, hclose, text, data, hspells, hrecv, hdata, hle⟩ := h
  have hhandle : Control.handle E n req k = (n', .ok resp) := by
    unfold Control.answer at hanswer
    split at hanswer
    · next heq =>
      obtain ⟨rfl, rfl⟩ := Prod.mk.inj (Option.some.inj hanswer)
      exact heq
    · cases hanswer
  rw [Control.serve, request_whole hspells hset hrecv hdata hle, hhandle]
  simp [hreply, hclose]

/-- The socket adds nothing to the commands: where every request comes in one piece, the
clients that wait are served one after another, each reply is what the command gives for
that client's request, and a client to which the reply comes gets it, however it is cut;
no client ever gets anything else. -/
theorem queries_answered {as : List (Json × Connection)} {resps : List Json}
    (has : ∀ a ∈ as, Arrives E a.1 a.2)
    (hx : exec (Control.answer E) n as = some (n', resps)) :
    Control.poll E true n (as.map Prod.snd) = (n', .ok (resps.map some)) ∧
      ∀ resp ∈ resps, ∀ text, Spells E resp text → ∀ q : Client,
        q.Gets E resp (wireLine text) := by
  refine ⟨?_, fun resp _ text h q => h.gets q⟩
  rw [Control.poll, if_pos rfl]
  induction as generalizing n resps with
  | nil =>
    obtain ⟨rfl, rfl⟩ := Prod.mk.inj (Option.some.inj hx)
    rfl
  | cons a as ih =>
    obtain ⟨n₁, resp, resps', hone, hrest, rfl⟩ := exec_cons_iff.mp hx
    have hserve := serve_of_arrives (has a (by simp)) hone
    have hall := ih (fun b hb => has b (List.mem_cons_of_mem a hb)) hrest
    rw [List.map_cons, Control.serveAll, hserve]
    simp only [hall, List.map_cons]
    rfl

/-- A question that the node has no command for, its text and the reply's. -/
def peers : Json := queryRequest "peers" []

def peersText : List Char := '{' :: ("\"cmd\": \"peers\"".toList ++ ['}'])

def unknownText : List Char :=
  '{' :: ("\"error\": \"unknown command: peers\"".toList ++ ['}'])

/-- Enough of the language to read these two. -/
def peersRuntime : Runtime where
  loads s :=
    if s.toList ∈ [peersText, peersText ++ ['\n']] then some peers
    else if s.toList ∈ [unknownText, unknownText ++ ['\n']] then
      some (.obj [("error", .str "unknown command: peers")])
    else none
  format _ := .ok ""
  text _ := "Expecting value"

theorem loads_peers {cs : List Char} (h : cs ∈ [peersText, peersText ++ ['\n']]) :
    peersRuntime.loads (String.ofList cs) = some peers := by
  simp only [peersRuntime, String.toList_ofList]
  exact if_pos h

theorem loads_unknown {cs : List Char} (hne : cs ∉ [peersText, peersText ++ ['\n']])
    (h : cs ∈ [unknownText, unknownText ++ ['\n']]) :
    peersRuntime.loads (String.ofList cs) =
      some (.obj [("error", .str "unknown command: peers")]) := by
  simp only [peersRuntime, String.toList_ofList]
  exact (if_neg hne).trans (if_pos h)

/-- What is left to check of a text between braces. -/
theorem spells_of_loads {inner : List Char} (htext : text = '{' :: (inner ++ ['}']))
    (hascii : (text.all fun c => 0x20 ≤ c.toNat && c.toNat < 0x80) = true)
    (hloads : E.loads (String.ofList text) = some v)
    (hnewline : E.loads (String.ofList (text ++ ['\n'])) = some v)
    (hcut : ∀ t ∈ text.inits, t ≠ text → (E.loads (String.ofList t)).isNone) : Spells E v text where
  ascii c hc := by simpa using List.all_eq_true.mp hascii c hc
  braces := ⟨inner, htext⟩
  loads := hloads
  newline := hnewline
  cut t ht hne := Option.isNone_iff_eq_none.mp (hcut t ((List.mem_inits _ _).mpr ht) hne)

theorem spells_peers : Spells peersRuntime peers peersText :=
  spells_of_loads rfl (by decide +kernel) (loads_peers (by decide +kernel))
    (loads_peers (by decide +kernel)) (by decide +kernel)

theorem spells_unknown : Spells peersRuntime (.obj [("error", .str "unknown command: peers")])
    unknownText :=
  spells_of_loads rfl (by decide +kernel) (loads_unknown (by decide +kernel) (by decide +kernel))
    (loads_unknown (by decide +kernel) (by decide +kernel)) (by decide +kernel)

/-- The client's connection, with what the first `recv` takes from it. -/
def peersConnection (length : ℕ) : Connection :=
  { Control.sampleClient with recv := some ((wireLine peersText).take length) }

theorem queries_answered_peers :
    Control.poll peersRuntime true Node.sampleStart [peersConnection 16] =
        (Node.sampleStart, .ok [some (.obj [("error", .str "unknown command: peers")])]) ∧
      Client.query peersRuntime ⟨true, true, true,
          [some ((wireLine unknownText).take 20), some ((wireLine unknownText).drop 20)]⟩ =
        .ok (.obj [("error", .str "unknown command: peers")]) := by
  have harrives : Arrives peersRuntime peers (peersConnection 16) :=
    ⟨rfl, rfl, rfl, peersText, _, spells_peers, rfl, List.take_prefix _ _, by decide +kernel⟩
  have hx : exec (Control.answer peersRuntime) Node.sampleStart [(peers, peersConnection 16)] =
      some (Node.sampleStart, [.obj [("error", .str "unknown command: peers")]]) := rfl
  obtain ⟨hpoll, hclients⟩ := queries_answered (fun a ha => by
    obtain rfl := List.mem_singleton.mp ha
    exact harrives) hx
  refine ⟨hpoll, (hclients _ (by simp) unknownText spells_unknown _).1
    ⟨rfl, rfl, rfl, [_, _], [], ?_, ?_, rfl⟩⟩
  · decide +kernel
  · decide +kernel

/-- What the daemon answers to what is no JSON. -/
def refusal (E : Runtime) (raw : String) : Json := .obj [("error", .str (E.text (.json raw)))]

/-- A request of which the first piece is not all, be it longer than the daemon reads at once
or cut on the way, is refused: it changes nothing, and no client of it ever gets anything
but a refusal. -/
theorem cut_query_refused (h : Spells E req text) (hset : k.settimeout = true)
    (hrecv : k.recv = some data) (hdata : data <+: wireLine text) (hne : data ≠ [])
    (hlt : data.length < text.length) (herror : k.errorReply = true) (hclose : k.close = true) :
    ∃ raw, Control.serve E n k = (n, .ok (some (refusal E raw))) ∧
      ∀ reply, Spells E (refusal E raw) reply → ∀ q : Client,
        q.Gets E (refusal E raw) (wireLine reply) := by
  obtain ⟨raw, hraw⟩ := request_cut (n := n) h hset hrecv hdata hne hlt
  refine ⟨raw, ?_, fun reply hreply q => hreply.gets q⟩
  rw [Control.serve, hraw]
  simp [hclose, herror, Control.refuse, Exn.caught, refusal]

theorem cut_query_refused_peers : ∃ raw,
    Control.serve peersRuntime Node.sampleStart (peersConnection 9) =
        (Node.sampleStart, .ok (some (refusal peersRuntime raw))) ∧
      ∀ reply, Spells peersRuntime (refusal peersRuntime raw) reply → ∀ q : Client,
        q.Gets peersRuntime (refusal peersRuntime raw) (wireLine reply) :=
  cut_query_refused spells_peers rfl rfl (List.take_prefix _ _) (by decide +kernel)
    (by decide +kernel) rfl rfl

end Beachedmesh
