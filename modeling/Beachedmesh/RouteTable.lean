import Beachedmesh.ColdStore

/-!
# The route table

A bounded hot table, most recently used last, over cold storage. Copies worse
than the held route wait in `pending` until `tick` commits them. `learn`,
`_commit`, `_settle` and `next_hop` pack a hot entry into fixed-width fields;
they return `none` where `struct.pack` raises. Clock readings are arguments:
`now` is `time.time()`, `mono` the `time.monotonic()` of a forced flush.
-/
namespace Beachedmesh

def settleAfter : ℚ := 1
def floodGuard : ℚ := 3
def memoryBudget : ℕ := 100 * 1024 * 1024
def bytesPerEntry : ℕ := 52
def maxHotRoutes : ℕ := memoryBudget / bytesPerEntry

/-- The value the packed entry stores for an unknown signal. -/
def noRssi : ℤ := -128

/-- `int(x)`: truncation towards zero. -/
def pyInt (x : ℚ) : ℤ := if 0 ≤ x then ⌊x⌋ else ⌈x⌉

/-- A hot entry, packed as `!6sHbI`: every field fits its width. -/
structure Packed where
  nextHop : Mac
  hops : ℕ
  rssi : ℤ
  lastSeen : ℕ
  hops_lt : hops < 2 ^ 16
  rssi_ge : -128 ≤ rssi
  rssi_le : rssi ≤ 127
  lastSeen_lt : lastSeen < 2 ^ 32
  deriving DecidableEq

/-- `struct.pack(ROUTE_FMT, ...)`. -/
def pack (nextHop : Mac) (hops : ℕ) (rssi lastSeen : ℤ) : Option Packed :=
  if h : hops < 2 ^ 16 ∧ -128 ≤ rssi ∧ rssi ≤ 127 ∧ 0 ≤ lastSeen ∧ lastSeen < 2 ^ 32 then
    some ⟨nextHop, hops, rssi, lastSeen.toNat, h.1, h.2.1, h.2.2.1, by omega⟩
  else none

/-- A worse-than-held route waiting out its settle time. -/
structure Settle where
  commitAt : ℚ
  nextHop : Mac
  hops : ℕ
  rssi : ℤ
  deriving DecidableEq

/-- The arguments of `learn`: what one copy of an announce teaches. -/
structure Copy where
  nodeId : NodeId
  nextHop : Mac
  hops : ℕ
  rssi : Option ℤ
  signPub : Option Bytes
  encryptPub : Option Bytes
  name : String
  deriving DecidableEq

inductive LearnVerdict where
  | self
  | new
  | better
  | refreshed
  | settling
  | kept
  deriving DecidableEq

structure RouteTable where
  ownId : Option NodeId
  ttl : ℚ
  maxHot : ℕ
  cold : Option ColdStore
  hot : OrderedDict NodeId Packed
  pending : OrderedDict NodeId Settle
  deriving DecidableEq

/-- `rssi is not None and rssi > old_rssi`. -/
def stronger (rssi : Option ℤ) (old : ℤ) : Bool := rssi.any (fun r => decide (old < r))

/-- The candidate that a worse copy puts in the place of `p`, if it does: the first
one, or a better one under the deadline of the first. -/
def sharpen (p : Option Settle) (c : Copy) (now : ℚ) : Option Settle :=
  match p with
  | none => some ⟨now + settleAfter, c.nextHop, c.hops, c.rssi.getD noRssi⟩
  | some p =>
    if c.hops < p.hops ∨ (c.hops = p.hops ∧ stronger c.rssi p.rssi = true) then
      some ⟨p.commitAt, c.nextHop, c.hops, c.rssi.getD noRssi⟩
    else none

/-- A hearing that leaves the held route standing. -/
def Packed.heard (old : Packed) (c : Copy) (now : ℚ) : Hearing :=
  ⟨old.nextHop, old.hops, some old.rssi, now, c.signPub, c.encryptPub, c.name⟩

/-- The hearing that a commit writes. -/
def Copy.hearing (c : Copy) (now : ℚ) : Hearing :=
  ⟨c.nextHop, c.hops, c.rssi, now, c.signPub, c.encryptPub, c.name⟩

/-- A pending candidate as the copy that `_settle` commits: without keys or name. -/
def Settle.copy (p : Settle) (nodeId : NodeId) : Copy :=
  ⟨nodeId, p.nextHop, p.hops, some p.rssi, none, none, ""⟩

/-- The readings of one `tick`: the wall clock of `_settle`, and the monotonic ones
of a flush it forces, of `maybe_flush`'s check and of its flush. -/
structure TickClock where
  wall : ℚ
  settled : ℚ
  check : ℚ
  done : ℚ
  deriving DecidableEq

namespace RouteTable

def new (ownId : Option NodeId) (ttl : ℚ) (cold : Option ColdStore) (maxHot : ℕ) : RouteTable :=
  ⟨ownId, ttl, maxHot, cold, OrderedDict.empty, OrderedDict.empty⟩

/-- Delete first so that reinserting moves the entry to the end, then evict. -/
def putHot (t : RouteTable) (nodeId : NodeId) (nextHop : Mac) (hops : ℕ) (rssi : Option ℤ)
    (lastSeen : ℚ) : Option RouteTable :=
  (pack nextHop hops (rssi.getD noRssi) (pyInt lastSeen)).map fun e =>
    { t with hot := (t.hot.reinsert nodeId e).evict t.maxHot }

/-- `if self.cold: self.cold.buffer(...)`. -/
def note (t : RouteTable) (nodeId : NodeId) (h : Hearing) (mono : ℚ) : RouteTable :=
  { t with cold := t.cold.map (fun s => s.buffer nodeId h mono) }

def commit (t : RouteTable) (c : Copy) (now mono : ℚ) : Option RouteTable :=
  (t.putHot c.nodeId c.nextHop c.hops c.rssi now).map fun t' =>
    t'.note c.nodeId (c.hearing now) mono

def dropPending (t : RouteTable) (nodeId : NodeId) : RouteTable :=
  { t with pending := t.pending.erase nodeId }

def learn (t : RouteTable) (c : Copy) (now mono : ℚ) : Option (LearnVerdict × RouteTable) :=
  if t.ownId = some c.nodeId then some (.self, t)
  else
    match t.hot.get? c.nodeId with
    | none => ((t.dropPending c.nodeId).commit c now mono).map fun t' => (.new, t')
    | some old =>
      if c.hops ≤ old.hops then
        let t' := t.dropPending c.nodeId
        if c.hops < old.hops then (t'.commit c now mono).map fun t' => (.better, t')
        else if c.nextHop = old.nextHop then
          (t'.commit c now mono).map fun t' => (.refreshed, t')
        else if now - old.lastSeen ≤ floodGuard ∧ ¬ stronger c.rssi old.rssi = true then
          some (.kept, t'.note c.nodeId (old.heard c now) mono)
        else (t'.commit c now mono).map fun t' => (.better, t')
      else if now - old.lastSeen > floodGuard then
        let pending := match sharpen (t.pending.get? c.nodeId) c now with
          | some p => t.pending.insert c.nodeId p
          | none => t.pending
        let t' := { t with pending := pending }
        some (.settling, t'.note c.nodeId (old.heard c now) mono)
      else some (.kept, t.note c.nodeId (old.heard c now) mono)

def settleOne (now mono : ℚ) (t : RouteTable) (e : NodeId × Settle) : Option RouteTable :=
  (t.dropPending e.1).commit (e.2.copy e.1) now mono

/-- Commit the pending routes whose wait is over, in the order of the table. -/
def settle (t : RouteTable) (now mono : ℚ) : Option RouteTable :=
  (t.pending.entries.filter (fun e => decide (e.2.commitAt ≤ now))).foldlM (settleOne now mono) t

def tick (t : RouteTable) (clk : TickClock) : Option RouteTable :=
  (t.settle clk.wall clk.settled).map fun t' =>
    { t' with cold := t'.cold.map (fun s => s.maybeFlush clk.check clk.done) }

/-- MAC to send to, or `none`; a hit is promoted. -/
def nextHop (t : RouteTable) (nodeId : NodeId) : Option (Option Mac × RouteTable) :=
  match t.hot.get? nodeId with
  | some e => some (some e.nextHop, { t with hot := t.hot.reinsert nodeId e })
  | none =>
    match t.cold.bind (fun s => s.get nodeId) with
    | some r =>
      (t.putHot nodeId r.nextHop r.hops r.rssi r.lastSeen).map fun t' => (some r.nextHop, t')
    | none => some (none, t)

/-- Drop routes past the TTL; each tier compares with a reading of its own. -/
def expire (t : RouteTable) (now nowCold : ℚ) : List NodeId × RouteTable :=
  let dead := fun e : NodeId × Packed => decide ((e.2.lastSeen : ℚ) < now - t.ttl)
  ((t.hot.filter dead).keys,
    { t with
      hot := t.hot.filter (fun e => ! dead e)
      cold := t.cold.map (fun s => s.expire t.ttl nowCold) })

/-- `routes.cold.flush()`, as `close` does. -/
def flush (t : RouteTable) (mono : ℚ) : RouteTable :=
  { t with cold := t.cold.map (fun s => s.flush mono) }

def ofPacked (nodeId : NodeId) (e : Packed) : Route where
  nodeId := nodeId
  nextHop := e.nextHop
  hops := e.hops
  rssi := if e.rssi = noRssi then none else some e.rssi
  lastSeen := e.lastSeen
  firstSeen := e.lastSeen
  announces := 1
  signPub := none
  encryptPub := none
  name := ""

/-- A view of a route; `full` asks the disk first. -/
def get (t : RouteTable) (nodeId : NodeId) (full : Bool) : Option Route :=
  let stored := t.cold.bind (fun s => s.get nodeId)
  let held := (t.hot.get? nodeId).map (ofPacked nodeId)
  if full then stored <|> held else held <|> stored

/-- `(sign_pub, encrypt_pub)` from cold storage. -/
def keysFor (t : RouteTable) (nodeId : NodeId) : Option Bytes × Option Bytes :=
  match t.cold.bind (fun s => s.get nodeId) with
  | some r => (r.signPub, r.encryptPub)
  | none => (none, none)

/-- `-(r.rssi or -127)`: an unknown signal, and 0, count as -127. -/
def signalKey (rssi : Option ℤ) : ℤ :=
  match rssi with
  | none => 127
  | some r => if r = 0 then 127 else -r

/-- The routes of the hot table, nearest first, then strongest. -/
def toList (t : RouteTable) : List Route :=
  (t.hot.entries.map (fun e => ofPacked e.1 e.2)).mergeSort fun a b =>
    decide (a.hops < b.hops ∨ (a.hops = b.hops ∧ signalKey a.rssi ≤ signalKey b.rssi))

def neighbours (t : RouteTable) : List Route := t.toList.filter Route.isNeighbour

/-- Fill the hot table from the most recently heard rows. -/
def warm (t : RouteTable) (limit : Option ℕ) : Option RouteTable :=
  match t.cold with
  | none => some t
  | some s =>
    let limit := match limit with
      | some (k + 1) => k + 1
      | _ => t.maxHot
    (s.recent limit).foldlM
      (fun t e => t.putHot e.1 e.2.nextHop e.2.hops e.2.rssi e.2.lastSeen) t

def memoryBytes (t : RouteTable) : ℕ := t.hot.size * bytesPerEntry

end RouteTable

end Beachedmesh
