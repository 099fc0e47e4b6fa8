import Beachedmesh.Frame
import Beachedmesh.Support.OrderedDict
import Beachedmesh.Support.Machine

/-!
# Cold storage

Every route ever heard: the rows of the sqlite table, under a write buffer that
collapses several hearings of one node into one row. Two rules merge a hearing
with an older one: Python's `or` inside the buffer, and the upsert's `COALESCE`
and `CASE` on disk.
-/
namespace Beachedmesh

def defaultTtl : ℚ := 7 * 24 * 3600
def flushSeconds : ℚ := 5
def flushEntries : ℕ := 10000

/-- `a or b` on an optional byte string: `None` and `b""` are falsy. -/
def orKey : Option Bytes → Option Bytes → Option Bytes
  | some (x :: k), _ => some (x :: k)
  | _, b => b

theorem orKey_of_ne_nil {k : Bytes} (hk : k ≠ []) (b : Option Bytes) :
    orKey (some k) b = some k := by
  cases k with
  | nil => exact absurd rfl hk
  | cons x k => rfl

/-- `a or b` on strings. -/
def orName (a b : String) : String := if a = "" then b else a

/-- `COALESCE(a, b)`: only `NULL` gives way. -/
def coalesce : Option Bytes → Option Bytes → Option Bytes
  | some k, _ => some k
  | none, b => b

/-- A view of one route, built on demand. -/
structure Route where
  nodeId : NodeId
  nextHop : Mac
  hops : ℕ
  rssi : Option ℤ
  lastSeen : ℚ
  firstSeen : ℚ
  announces : ℕ
  signPub : Option Bytes
  encryptPub : Option Bytes
  name : String
  deriving DecidableEq

/-- Zero hops means it reached us directly. -/
def Route.isNeighbour (r : Route) : Bool := r.hops = 0

/-- A row on disk. The empty name stands for a `NULL` one too: nothing tells them apart. -/
structure Row where
  nextHop : Mac
  hops : ℕ
  rssi : Option ℤ
  firstSeen : ℚ
  lastSeen : ℚ
  announces : ℕ
  signPub : Option Bytes
  encryptPub : Option Bytes
  name : String
  deriving DecidableEq

/-- A tuple in the write buffer. -/
structure Hearing where
  nextHop : Mac
  hops : ℕ
  rssi : Option ℤ
  lastSeen : ℚ
  signPub : Option Bytes
  encryptPub : Option Bytes
  name : String
  deriving DecidableEq

/-- The buffer's merge: a hearing keeps what the previous one knew and it does not. -/
def Hearing.over (h prev : Hearing) : Hearing :=
  { h with
    signPub := orKey h.signPub prev.signPub
    encryptPub := orKey h.encryptPub prev.encryptPub
    name := orName h.name prev.name }

/-- The row that `INSERT` writes for a node not on disk. -/
def Row.ofHearing (h : Hearing) : Row where
  nextHop := h.nextHop
  hops := h.hops
  rssi := h.rssi
  firstSeen := h.lastSeen
  lastSeen := h.lastSeen
  announces := 1
  signPub := h.signPub
  encryptPub := h.encryptPub
  name := h.name

/-- The row that `ON CONFLICT DO UPDATE` leaves. -/
def Row.update (r : Row) (h : Hearing) : Row where
  nextHop := h.nextHop
  hops := h.hops
  rssi := h.rssi
  firstSeen := r.firstSeen
  lastSeen := h.lastSeen
  announces := r.announces + 1
  signPub := coalesce h.signPub r.signPub
  encryptPub := coalesce h.encryptPub r.encryptPub
  name := if h.name ≠ "" then h.name else r.name

/-- The row of a node after a hearing is written over what the disk holds. -/
def Row.upsert (old : Option Row) (h : Hearing) : Row :=
  match old with
  | none => Row.ofHearing h
  | some r => r.update h

@[simp] theorem Row.upsert_nextHop (old : Option Row) (h : Hearing) :
    (Row.upsert old h).nextHop = h.nextHop := by cases old <;> rfl

@[simp] theorem Row.upsert_hops (old : Option Row) (h : Hearing) :
    (Row.upsert old h).hops = h.hops := by cases old <;> rfl

@[simp] theorem Row.upsert_rssi (old : Option Row) (h : Hearing) :
    (Row.upsert old h).rssi = h.rssi := by cases old <;> rfl

@[simp] theorem Row.upsert_lastSeen (old : Option Row) (h : Hearing) :
    (Row.upsert old h).lastSeen = h.lastSeen := by cases old <;> rfl

structure ColdStore where
  rows : OrderedDict NodeId Row
  buf : OrderedDict NodeId Hearing
  lastFlush : ℚ
  deriving DecidableEq

namespace ColdStore

/-- A store opened over the rows of an existing database. -/
def new (rows : OrderedDict NodeId Row) (mono : ℚ) : ColdStore := ⟨rows, OrderedDict.empty, mono⟩

def writeRow (rows : OrderedDict NodeId Row) (e : NodeId × Hearing) : OrderedDict NodeId Row :=
  rows.insert e.1 (Row.upsert (rows.get? e.1) e.2)

/-- Write the buffer out; `mono` is the reading that ends up in `_last_flush`. -/
def flush (c : ColdStore) (mono : ℚ) : ColdStore :=
  if c.buf.size = 0 then { c with lastFlush := mono }
  else ⟨c.buf.entries.foldl writeRow c.rows, OrderedDict.empty, mono⟩

def buffer (c : ColdStore) (nodeId : NodeId) (h : Hearing) (mono : ℚ) : ColdStore :=
  let merged := match c.buf.get? nodeId with
    | some prev => h.over prev
    | none => h
  let c' := { c with buf := c.buf.insert nodeId merged }
  if c'.buf.size ≥ flushEntries then c'.flush mono else c'

/-- `check` is the reading compared with the last flush, `done` the one after it. -/
def maybeFlush (c : ColdStore) (check done : ℚ) : ColdStore :=
  if c.buf.size ≠ 0 ∧ check - c.lastFlush ≥ flushSeconds then c.flush done else c

def ofHearing (nodeId : NodeId) (h : Hearing) : Route where
  nodeId := nodeId
  nextHop := h.nextHop
  hops := h.hops
  rssi := h.rssi
  lastSeen := h.lastSeen
  firstSeen := h.lastSeen
  announces := 1
  signPub := h.signPub
  encryptPub := h.encryptPub
  name := h.name

def ofRow (nodeId : NodeId) (r : Row) : Route where
  nodeId := nodeId
  nextHop := r.nextHop
  hops := r.hops
  rssi := r.rssi
  lastSeen := r.lastSeen
  firstSeen := r.firstSeen
  announces := r.announces
  signPub := r.signPub
  encryptPub := r.encryptPub
  name := r.name

/-- Full record, or `none`. Checks the unflushed buffer first. -/
def get (c : ColdStore) (nodeId : NodeId) : Option Route :=
  match c.buf.get? nodeId with
  | some h => some (ofHearing nodeId h)
  | none => (c.rows.get? nodeId).map (ofRow nodeId)

/-- The most recently heard rows, for warming the hot table. -/
def recent (c : ColdStore) (limit : ℕ) : List (NodeId × Row) :=
  (c.rows.entries.mergeSort (fun a b => decide (b.2.lastSeen ≤ a.2.lastSeen))).take limit

def expire (c : ColdStore) (ttl now : ℚ) : ColdStore :=
  { c with rows := c.rows.filter (fun e => decide (¬ e.2.lastSeen < now - ttl)) }

/-! ### What the operations do to one node -/

/-- The hearing that stands in the buffer after `buffer`, before any flush. -/
def merge (c : ColdStore) (nodeId : NodeId) (h : Hearing) : Hearing :=
  match c.buf.get? nodeId with
  | some prev => h.over prev
  | none => h

@[simp] theorem merge_nextHop (c : ColdStore) (n : NodeId) (h : Hearing) :
    (c.merge n h).nextHop = h.nextHop := by rw [merge]; split <;> rfl

@[simp] theorem merge_hops (c : ColdStore) (n : NodeId) (h : Hearing) :
    (c.merge n h).hops = h.hops := by rw [merge]; split <;> rfl

@[simp] theorem merge_rssi (c : ColdStore) (n : NodeId) (h : Hearing) :
    (c.merge n h).rssi = h.rssi := by rw [merge]; split <;> rfl

@[simp] theorem merge_lastSeen (c : ColdStore) (n : NodeId) (h : Hearing) :
    (c.merge n h).lastSeen = h.lastSeen := by rw [merge]; split <;> rfl

theorem buffer_eq (c : ColdStore) (n : NodeId) (h : Hearing) (mono : ℚ) :
    c.buffer n h mono =
      if ({ c with buf := c.buf.insert n (c.merge n h) } : ColdStore).buf.size ≥ flushEntries then
        ({ c with buf := c.buf.insert n (c.merge n h) } : ColdStore).flush mono
      else { c with buf := c.buf.insert n (c.merge n h) } := rfl

theorem get?_foldl_writeRow (es : List (NodeId × Hearing)) (hnd : (es.map Prod.fst).Nodup)
    (rows : OrderedDict NodeId Row) (n : NodeId) :
    (es.foldl writeRow rows).get? n =
      match (es.find? (fun e => decide (e.1 = n))).map Prod.snd with
      | some h => some (Row.upsert (rows.get? n) h)
      | none => rows.get? n := by
  induction es generalizing rows with
  | nil => rfl
  | cons e es ih =>
    rw [List.map_cons, List.nodup_cons] at hnd
    rw [List.foldl_cons, ih hnd.2]
    by_cases he : e.1 = n
    · have hnone : es.find? (fun e => decide (e.1 = n)) = none := by
        rw [List.find?_eq_none]
        intro x hx
        have hxn : x.1 ≠ n := fun hxn => hnd.1 (he ▸ hxn ▸ List.mem_map_of_mem hx)
        simpa using hxn
      simp [hnone, he, writeRow]
    · simp [he, writeRow, Ne.symm he]

/-- A flush writes every buffered hearing over the row of its node. -/
theorem get?_rows_flush (c : ColdStore) (mono : ℚ) (n : NodeId) :
    (c.flush mono).rows.get? n =
      match c.buf.get? n with
      | some h => some (Row.upsert (c.rows.get? n) h)
      | none => c.rows.get? n := by
  rw [flush]
  split_ifs with h
  · have hnone : c.buf.get? n = none := by
      rw [OrderedDict.get?_eq_none_iff]
      have hnil : c.buf.keys = [] := List.length_eq_zero_iff.mp (by simpa using h)
      simp [hnil]
    rw [hnone]
  · exact get?_foldl_writeRow _ c.buf.nodup c.rows n

@[simp] theorem buf_flush (c : ColdStore) (mono : ℚ) :
    (c.flush mono).buf = OrderedDict.empty := by
  rw [flush]
  split_ifs with h
  · apply OrderedDict.ext
    exact List.length_eq_zero_iff.mp h
  · rfl

@[simp] theorem lastFlush_flush (c : ColdStore) (mono : ℚ) :
    (c.flush mono).lastFlush = mono := by
  rw [flush]
  split_ifs <;> rfl

/-- A flush reads the buffered hearing back as an upserted row. -/
theorem get_flush (c : ColdStore) (mono : ℚ) (n : NodeId) :
    (c.flush mono).get n =
      match c.buf.get? n with
      | some h => some (ofRow n (Row.upsert (c.rows.get? n) h))
      | none => (c.rows.get? n).map (ofRow n) := by
  rw [get, buf_flush, OrderedDict.get?_empty, get?_rows_flush]
  cases c.buf.get? n <;> rfl

/-! ### What holds of every record -/

/-- `B` holds of what is buffered and `R` of what is on disk. -/
structure Records (B : NodeId → Hearing → Prop) (R : NodeId → Row → Prop) (s : ColdStore) :
    Prop where
  buffered : ∀ n h, s.buf.get? n = some h → B n h
  onDisk : ∀ n r, s.rows.get? n = some r → R n r

/-- The two merges keep the predicates. -/
structure Merging (B : NodeId → Hearing → Prop) (R : NodeId → Row → Prop) : Prop where
  merged : ∀ n h prev, B n h → B n prev → B n (h.over prev)
  upsert : ∀ n h old, B n h → (∀ r, old = some r → R n r) → R n (Row.upsert old h)

variable {B : NodeId → Hearing → Prop} {R : NodeId → Row → Prop} {s : ColdStore}

theorem records_new (mono : ℚ) : (new OrderedDict.empty mono).Records B R where
  buffered := fun n h hb => by cases hb
  onDisk := fun n r hr => by cases hr

theorem Records.flush (h : s.Records B R) (hm : Merging B R) (mono : ℚ) :
    (s.flush mono).Records B R where
  buffered := by
    intro n b hb
    rw [buf_flush] at hb
    cases hb
  onDisk := by
    intro n r hr
    rw [get?_rows_flush] at hr
    cases hb : s.buf.get? n with
    | none => exact h.onDisk n r (by simpa [hb] using hr)
    | some b =>
      obtain rfl : Row.upsert (s.rows.get? n) b = r := by simpa [hb] using hr
      exact hm.upsert n b _ (h.buffered n b hb) fun r hr => h.onDisk n r hr

theorem Records.maybeFlush (h : s.Records B R) (hm : Merging B R) (check done : ℚ) :
    (s.maybeFlush check done).Records B R := by
  unfold ColdStore.maybeFlush
  split_ifs
  · exact h.flush hm done
  · exact h

theorem Records.buffer (h : s.Records B R) (hm : Merging B R) {n : NodeId} {b : Hearing}
    (hb : B n b) (mono : ℚ) : (s.buffer n b mono).Records B R := by
  have hmerge : B n (s.merge n b) := by
    unfold merge
    cases hp : s.buf.get? n with
    | none => exact hb
    | some prev => exact hm.merged n b prev hb (h.buffered n prev hp)
  have hins : Records B R { s with buf := s.buf.insert n (s.merge n b) } := by
    refine ⟨fun m x hx => ?_, h.onDisk⟩
    rw [OrderedDict.get?_insert] at hx
    split_ifs at hx with hm
    · obtain rfl := Option.some.inj hx
      exact hm ▸ hmerge
    · exact h.buffered m x hx
  rw [buffer_eq]
  split_ifs
  · exact hins.flush hm mono
  · exact hins

theorem Records.expire (h : s.Records B R) (ttl now : ℚ) : (s.expire ttl now).Records B R where
  buffered := h.buffered
  onDisk := by
    intro n r hr
    unfold ColdStore.expire at hr
    rw [OrderedDict.get?_filter] at hr
    exact h.onDisk n r (Option.filter_eq_some_iff.mp hr).1

end ColdStore

end Beachedmesh
