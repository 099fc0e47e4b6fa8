import Beachedmesh.FlushTiming

/-!
# What the disk remembers of a node

`first_seen` and `announces` are written by the flush: a new row is dated with the
hearing it is made of and counts one, a row already there keeps its date and counts
one more. Hearings that meet in the buffer count as one, and a row that `expire`
deletes takes its past with it.
-/
namespace Beachedmesh
open Machine

namespace ColdOp

def isExpire : ColdOp → Bool
  | .expire _ _ => true
  | _ => false

/-- The time of a call of `buffer` for the node. -/
def timeOf? (n : NodeId) : ColdOp → Option ℚ
  | .buffer m h _ => if m = n then some h.lastSeen else none
  | _ => none

end ColdOp

/-- The times at which the run buffers a hearing of the node. -/
def hearingTimes (n : NodeId) (ops : List ColdOp) : List ℚ := ops.filterMap (ColdOp.timeOf? n)

namespace ColdStore

variable {c c' : ColdStore} {n : NodeId}

/-- If the operation buffers a hearing of `n`, then none is buffered. -/
def Opens (n : NodeId) (c : ColdStore) (op : ColdOp) : Prop :=
  (op.timeOf? n).isSome → c.buf.get? n = none

/-- The count that a flush would leave. -/
def announcesOf (c : ColdStore) (n : NodeId) : ℕ :=
  (c.rows.get? n).elim 0 Row.announces + (c.buf.get? n).elim 0 fun _ => 1

/-- The date of the first hearing that a flush would leave. -/
def firstSeenOf (c : ColdStore) (n : NodeId) : Option ℚ :=
  match c.rows.get? n with
  | some r => some r.firstSeen
  | none => (c.buf.get? n).map Hearing.lastSeen

@[simp] theorem announcesOf_flush (c : ColdStore) (mono : ℚ) (n : NodeId) :
    (c.flush mono).announcesOf n = c.announcesOf n := by
  rw [announcesOf, announcesOf, get?_rows_flush, buf_flush]
  cases c.buf.get? n with
  | none => rfl
  | some h => cases c.rows.get? n <;> rfl

@[simp] theorem firstSeenOf_flush (c : ColdStore) (mono : ℚ) (n : NodeId) :
    (c.flush mono).firstSeenOf n = c.firstSeenOf n := by
  rw [firstSeenOf, firstSeenOf, get?_rows_flush, buf_flush]
  cases c.buf.get? n with
  | none => cases c.rows.get? n <;> rfl
  | some h => cases c.rows.get? n <;> rfl

/-- A hearing is counted if it finds none in the buffer. -/
theorem announcesOf_buffer (c : ColdStore) (m : NodeId) (h : Hearing) (mono : ℚ) (n : NodeId) :
    (c.buffer m h mono).announcesOf n =
      c.announcesOf n + if m = n ∧ c.buf.get? n = none then 1 else 0 := by
  have henter : (c.enter m h).announcesOf n =
      c.announcesOf n + if m = n ∧ c.buf.get? n = none then 1 else 0 := by
    rw [announcesOf, announcesOf, enter, OrderedDict.get?_insert]
    by_cases hm : n = m
    · subst hm
      rw [if_pos rfl]
      cases c.buf.get? n <;> simp
    · rw [if_neg hm, if_neg fun hc => hm hc.1.symm, add_zero]
  rcases buffer_cases c m h mono with he | he <;> rw [he]
  · exact henter
  · rw [announcesOf_flush, henter]

/-- It dates a node that neither the disk nor the buffer has. -/
theorem firstSeenOf_buffer (c : ColdStore) {m n : NodeId} (h : Hearing) (mono : ℚ)
    (hn : m = n → c.buf.get? n = none) :
    (c.buffer m h mono).firstSeenOf n =
      (c.firstSeenOf n).or (if m = n then some h.lastSeen else none) := by
  have henter : (c.enter m h).firstSeenOf n =
      (c.firstSeenOf n).or (if m = n then some h.lastSeen else none) := by
    rw [firstSeenOf, firstSeenOf, enter, OrderedDict.get?_insert]
    by_cases hm : n = m
    · subst hm
      rw [hn rfl, if_pos rfl, if_pos rfl, Option.map_some, merge_lastSeen]
      cases c.rows.get? n <;> rfl
    · rw [if_neg hm, if_neg (Ne.symm hm), Option.or_none]
  rcases buffer_cases c m h mono with he | he <;> rw [he]
  · exact henter
  · rw [firstSeenOf_flush, henter]

/-! ### Runs without expiry -/

theorem hearingTimes_cons (n : NodeId) (op : ColdOp) (ops : List ColdOp) :
    hearingTimes n (op :: ops) = (op.timeOf? n).toList ++ hearingTimes n ops := by
  rw [hearingTimes, List.filterMap_cons]
  cases op.timeOf? n <;> rfl

/-- One operation counts at most one hearing, and misses it if one is buffered already. -/
theorem announcesOf_step {op : ColdOp} {o : Unit} (hop : op.isExpire = false)
    (hx : c.step op = some (c', o)) (n : NodeId) :
    c'.announcesOf n ≤ c.announcesOf n + (op.timeOf? n).toList.length ∧
      (c'.announcesOf n = c.announcesOf n + (op.timeOf? n).toList.length ↔ Opens n c op) := by
  cases op with
  | buffer m h mono =>
    obtain ⟨rfl, -⟩ := Prod.mk.inj (Option.some.inj hx)
    rw [announcesOf_buffer, Opens, ColdOp.timeOf?]
    by_cases hm : m = n
    · by_cases hb : c.buf.get? n = none <;> simp [hm, hb]
    · simp [hm]
  | flush mono =>
    obtain ⟨rfl, -⟩ := Prod.mk.inj (Option.some.inj hx)
    rw [announcesOf_flush]
    simp [Opens, ColdOp.timeOf?]
  | expire ttl now => cases hop

theorem firstSeenOf_step {op : ColdOp} {o : Unit} (hop : op.isExpire = false)
    (hx : c.step op = some (c', o)) (hn : Opens n c op) :
    c'.firstSeenOf n = (c.firstSeenOf n).or (op.timeOf? n) := by
  cases op with
  | buffer m h mono =>
    obtain ⟨rfl, -⟩ := Prod.mk.inj (Option.some.inj hx)
    refine firstSeenOf_buffer c h mono fun hm => hn ?_
    rw [ColdOp.timeOf?, if_pos hm]
    rfl
  | flush mono =>
    obtain ⟨rfl, -⟩ := Prod.mk.inj (Option.some.inj hx)
    rw [firstSeenOf_flush]
    exact (Option.or_none).symm
  | expire ttl now => cases hop

/-- A run counts every hearing exactly if no two meet in the buffer. -/
theorem announcesOf_exec {ops : List ColdOp} {os : List Unit}
    (hops : ∀ op ∈ ops, op.isExpire = false) (hx : exec step c ops = some (c', os)) (n : NodeId) :
    c'.announcesOf n ≤ c.announcesOf n + (hearingTimes n ops).length ∧
      (c'.announcesOf n = c.announcesOf n + (hearingTimes n ops).length ↔
        EachStep step (Opens n) c ops) := by
  induction ops generalizing c os with
  | nil =>
    obtain ⟨rfl, -⟩ := Prod.mk.inj (Option.some.inj hx)
    exact ⟨le_rfl, iff_of_true rfl (eachStep_nil _ _)⟩
  | cons op ops ih =>
    obtain ⟨u, o, os', hone, hrest, -⟩ := exec_cons_iff.mp hx
    obtain ⟨hle, hiff⟩ := announcesOf_step (hops op (by simp)) hone n
    obtain ⟨hle', hiff'⟩ := ih (fun op hop => hops op (by simp [hop])) hrest
    rw [hearingTimes_cons, List.length_append, eachStep_cons_iff hone, ← hiff, ← hiff']
    omega

theorem firstSeenOf_exec {ops : List ColdOp} {os : List Unit}
    (hops : ∀ op ∈ ops, op.isExpire = false) (hx : exec step c ops = some (c', os))
    (hn : EachStep step (Opens n) c ops) :
    c'.firstSeenOf n = (c.firstSeenOf n).or (hearingTimes n ops).head? := by
  induction ops generalizing c os with
  | nil =>
    obtain ⟨rfl, -⟩ := Prod.mk.inj (Option.some.inj hx)
    exact (Option.or_none).symm
  | cons op ops ih =>
    obtain ⟨u, o, os', hone, hrest, -⟩ := exec_cons_iff.mp hx
    obtain ⟨hopen, hn⟩ := (eachStep_cons_iff hone).mp hn
    rw [ih (fun op hop => hops op (by simp [hop])) hrest hn,
      firstSeenOf_step (hops op (by simp)) hone hopen, hearingTimes_cons, Option.or_assoc]
    cases op.timeOf? n <;> rfl

end ColdStore

/-- Over a disk without the node, any calls of `buffer`, at least one for the node, and of
`flush`, and a last flush: the row is dated with the first hearing and counts them all
exactly when no call for the node finds a hearing of it in the buffer. -/
theorem history_exact_iff {rows : OrderedDict NodeId Row} {mono₀ : ℚ} {n : NodeId}
    (hrows : rows.get? n = none) {ops : List ColdOp} (hops : ∀ op ∈ ops, op.isExpire = false)
    (hheard : hearingTimes n ops ≠ []) {c : ColdStore} {os : List Unit}
    (hx : exec ColdStore.step (ColdStore.new rows mono₀) ops = some (c, os)) (mono : ℚ) :
    (∃ r, (c.flush mono).rows.get? n = some r ∧
      (hearingTimes n ops).head? = some r.firstSeen ∧
      r.announces = (hearingTimes n ops).length) ↔
      EachStep ColdStore.step (ColdStore.Opens n) (ColdStore.new rows mono₀) ops := by
  have hann₀ : (ColdStore.new rows mono₀).announcesOf n = 0 := by
    rw [ColdStore.announcesOf, show (ColdStore.new rows mono₀).rows.get? n = none from hrows]
    rfl
  have hfirst₀ : (ColdStore.new rows mono₀).firstSeenOf n = none := by
    rw [ColdStore.firstSeenOf, show (ColdStore.new rows mono₀).rows.get? n = none from hrows]
    rfl
  obtain ⟨-, hiff⟩ := ColdStore.announcesOf_exec hops hx n
  rw [hann₀, zero_add] at hiff
  have hann := ColdStore.announcesOf_flush c mono n
  have hfirst := ColdStore.firstSeenOf_flush c mono n
  rw [ColdStore.announcesOf, ColdStore.buf_flush, OrderedDict.get?_empty] at hann
  rw [ColdStore.firstSeenOf, ColdStore.buf_flush, OrderedDict.get?_empty] at hfirst
  constructor
  · rintro ⟨r, hr, -, hcount⟩
    rw [hr] at hann
    exact hiff.mp (hann.symm.trans hcount)
  · intro hopen
    have hexact := ColdStore.firstSeenOf_exec hops hx hopen
    rw [hfirst₀, Option.none_or] at hexact
    cases hr : (c.flush mono).rows.get? n with
    | none =>
      rw [hr] at hann
      have hzero : c.announcesOf n = 0 := hann.symm
      exact absurd (List.length_eq_zero_iff.mp ((hiff.mpr hopen).symm.trans hzero)) hheard
    | some r =>
      rw [hr] at hann hfirst
      exact ⟨r, rfl, hexact.symm.trans hfirst.symm, hann.trans (hiff.mpr hopen)⟩

/-- A hearing of node 1 is flushed before the next one, a hearing of node 2 is not. -/
def spacedHearings : List ColdOp :=
  [.buffer (nodeIdOf 1) ⟨macOf 1, 0, none, 100, none, none, ""⟩ 0,
    .buffer (nodeIdOf 2) ⟨macOf 1, 1, none, 101, none, none, ""⟩ 1, .flush 5,
    .buffer (nodeIdOf 1) ⟨macOf 2, 1, none, 200, none, none, ""⟩ 6]

theorem history_exact_spaced : ∃ c os r,
    exec ColdStore.step (ColdStore.new OrderedDict.empty 0) spacedHearings = some (c, os) ∧
    (c.flush 10).rows.get? (nodeIdOf 1) = some r ∧ some 100 = some r.firstSeen ∧
    r.announces = 2 := by
  have hopen : EachStep ColdStore.step (ColdStore.Opens (nodeIdOf 1))
      (ColdStore.new OrderedDict.empty 0) spacedHearings := by
    refine (eachStep_cons_iff rfl).mpr ⟨fun _ => rfl, ?_⟩
    refine (eachStep_cons_iff rfl).mpr ⟨fun h => ?_, ?_⟩
    · revert h
      decide
    refine (eachStep_cons_iff rfl).mpr ⟨fun h => ?_, ?_⟩
    · cases h
    exact (eachStep_cons_iff rfl).mpr ⟨fun _ => rfl, eachStep_nil _ _⟩
  obtain ⟨r, hr, hfirst, hcount⟩ :=
    (history_exact_iff rfl (by decide) (by decide +kernel) rfl 10).mpr hopen
  exact ⟨_, _, r, rfl, hr, hfirst, hcount⟩

/-- Two announces of a new node within one flush: the row is dated with the second and
counts one. -/
theorem history_merges_hearings : ∃ c os r,
    exec ColdStore.step (ColdStore.new OrderedDict.empty 0)
      [.buffer (nodeIdOf 1) ⟨macOf 1, 0, none, 100, none, none, ""⟩ 0,
        .buffer (nodeIdOf 1) ⟨macOf 1, 0, none, 103, none, none, ""⟩ 3] = some (c, os) ∧
    (c.flush 5).rows.get? (nodeIdOf 1) = some r ∧ r.firstSeen = 103 ∧ r.announces = 1 :=
  ⟨_, _, _, rfl, rfl, rfl, rfl⟩

/-! ### Expiry against the buffer -/

namespace ColdStore

variable {c : ColdStore} {ttl now mono mono' : ℚ} {n : NodeId} {h : Hearing} {r : Row}

theorem get?_rows_expire (c : ColdStore) (ttl now : ℚ) (n : NodeId) :
    (c.expire ttl now).rows.get? n =
      (c.rows.get? n).filter fun r => decide (now - ttl ≤ r.lastSeen) := by
  rw [expire, OrderedDict.get?_filter]
  simp only [not_lt]

/-- A node without a buffered hearing does not tell the two orders apart. -/
theorem rows_expire_flush_of_none (hb : c.buf.get? n = none) :
    ((c.expire ttl now).flush mono).rows.get? n = ((c.flush mono').expire ttl now).rows.get? n := by
  have hb' : (c.expire ttl now).buf.get? n = none := hb
  rw [get?_rows_flush, hb', get?_rows_expire, get?_rows_expire, get?_rows_flush, hb]

/-- A buffered hearing within the TTL is written over what `expire` left, or is spared. -/
theorem rows_flush_expire_of_some (hb : c.buf.get? n = some h) (hh : now - ttl ≤ h.lastSeen) :
    ((c.flush mono).expire ttl now).rows.get? n = some (Row.upsert (c.rows.get? n) h) := by
  have hrow : now - ttl ≤ (Row.upsert (c.rows.get? n) h).lastSeen := by rwa [Row.upsert_lastSeen]
  rw [get?_rows_expire, get?_rows_flush, hb]
  exact Option.filter_some.trans (if_pos (decide_eq_true hrow))

theorem rows_expire_flush_of_some (hb : c.buf.get? n = some h) :
    ((c.expire ttl now).flush mono).rows.get? n = some (Row.upsert
      ((c.rows.get? n).filter fun r => decide (now - ttl ≤ r.lastSeen)) h) := by
  have hb' : (c.expire ttl now).buf.get? n = some h := hb
  rw [get?_rows_flush, hb', get?_rows_expire]

end ColdStore

/-- For every store reached from a database whose rows are counted, and every TTL and time
that all buffered hearings are within: `expire` before the flush leaves the rows that
`expire` after it leaves, and every row with a buffered hearing is kept and updated, exactly
when no such row is itself past the TTL. -/
theorem expire_flush_comm_iff {rows : OrderedDict NodeId Row} {mono₀ : ℚ}
    (hrows : (ColdStore.new rows mono₀).Counted) {ops : List ColdOp} {c : ColdStore}
    {os : List Unit} (hx : exec ColdStore.step (ColdStore.new rows mono₀) ops = some (c, os))
    {ttl now : ℚ} (hfresh : ∀ n h, c.buf.get? n = some h → now - ttl ≤ h.lastSeen)
    (mono mono' : ℚ) :
    ((∀ n, ((c.expire ttl now).flush mono).rows.get? n =
        ((c.flush mono').expire ttl now).rows.get? n) ∧
      ∀ n h r, c.buf.get? n = some h → c.rows.get? n = some r →
        ((c.expire ttl now).flush mono).rows.get? n = some (r.update h)) ↔
    ∀ n h r, c.buf.get? n = some h → c.rows.get? n = some r → now - ttl ≤ r.lastSeen := by
  have hc : c.Counted :=
    exec_invariant (P := fun _ => True) (fun hs _ h => ColdStore.Counted.step hs h) hrows
      (by simp) hx
  constructor
  · rintro ⟨-, hkept⟩ n h r hb hr
    by_contra hstale
    have hnew := hkept n h r hb hr
    rw [ColdStore.rows_expire_flush_of_some hb, hr, Option.filter_some,
      if_neg (by simpa using hstale)] at hnew
    -- the new row counts one hearing, the old one and the update at least two
    have hcount : 1 = r.announces + 1 := congrArg Row.announces (Option.some.inj hnew)
    have hpos := hc n r hr
    omega
  · intro hall
    have hkeep {n : NodeId} {h : Hearing} (hb : c.buf.get? n = some h) :
        (c.rows.get? n).filter (fun r => decide (now - ttl ≤ r.lastSeen)) = c.rows.get? n := by
      cases hr : c.rows.get? n with
      | none => rfl
      | some r => rw [Option.filter_some, if_pos (decide_eq_true (hall n h r hb hr))]
    constructor
    · intro n
      cases hb : c.buf.get? n with
      | none => exact ColdStore.rows_expire_flush_of_none hb
      | some h =>
        rw [ColdStore.rows_expire_flush_of_some hb, hkeep hb,
          ColdStore.rows_flush_expire_of_some hb (hfresh n h hb)]
    · intro n h r hb hr
      rw [ColdStore.rows_expire_flush_of_some hb, hkeep hb, hr]
      rfl

/-- Node 1 is heard at 100 with its keys, and again at time `t` without them. -/
def heardAgain (t : ℚ) : List ColdOp :=
  [.buffer (nodeIdOf 1) ⟨macOf 1, 0, none, 100, some [1], some [2], "x"⟩ 0, .flush 5,
    .buffer (nodeIdOf 1) ⟨macOf 1, 0, none, t, none, none, ""⟩ 6]

theorem expire_flush_comm_fresh : ∃ c os,
    exec ColdStore.step (ColdStore.new OrderedDict.empty 0) (heardAgain 518500) = some (c, os) ∧
    (∀ n, ((c.expire defaultTtl 518501).flush 10).rows.get? n =
      ((c.flush 10).expire defaultTtl 518501).rows.get? n) ∧
    ∀ n h r, c.buf.get? n = some h → c.rows.get? n = some r →
      ((c.expire defaultTtl 518501).flush 10).rows.get? n = some (r.update h) := by
  have hcounted : (ColdStore.new OrderedDict.empty 0).Counted := by
    intro n r hr
    cases hr
  have hrun : (exec ColdStore.step (ColdStore.new OrderedDict.empty 0) (heardAgain 518500)).map
      (fun p => decide ((∀ e ∈ p.1.buf.entries, 518501 - defaultTtl ≤ e.2.lastSeen) ∧
        ∀ e ∈ p.1.rows.entries, 518501 - defaultTtl ≤ e.2.lastSeen)) = some true := by
    decide +kernel
  obtain ⟨⟨c, os⟩, hx, hdec⟩ := Option.map_eq_some_iff.mp hrun
  obtain ⟨hbuf, hrows⟩ := of_decide_eq_true hdec
  refine ⟨c, os, hx, (expire_flush_comm_iff hcounted hx (fun n h hb => ?_) 10 10).mpr
    fun n h r _ hr => ?_⟩
  · exact hbuf (n, h) (OrderedDict.get?_eq_some_iff.mp hb)
  · exact hrows (n, r) (OrderedDict.get?_eq_some_iff.mp hr)

/-- Heard again after more than a week: the row is deleted although the buffer holds a
hearing a second old, and the flush starts anew, without keys. -/
theorem expire_forgets_buffered : ∃ c os r r',
    exec ColdStore.step (ColdStore.new OrderedDict.empty 0) (heardAgain 700000) = some (c, os) ∧
    (∀ n h, c.buf.get? n = some h → 700001 - defaultTtl ≤ h.lastSeen) ∧
    ((c.expire defaultTtl 700001).flush 10).rows.get? (nodeIdOf 1) = some r ∧
    ((c.flush 10).expire defaultTtl 700001).rows.get? (nodeIdOf 1) = some r' ∧
    r.firstSeen = 700000 ∧ r.announces = 1 ∧ r.signPub = none ∧
    r'.firstSeen = 100 ∧ r'.announces = 2 ∧ r'.signPub = some [1] := by
  have hrun : (exec ColdStore.step (ColdStore.new OrderedDict.empty 0) (heardAgain 700000)).bind
      (fun p => (((p.1.expire defaultTtl 700001).flush 10).rows.get? (nodeIdOf 1)).bind fun r =>
        (((p.1.flush 10).expire defaultTtl 700001).rows.get? (nodeIdOf 1)).map fun r' =>
          decide ((∀ e ∈ p.1.buf.entries, 700001 - defaultTtl ≤ e.2.lastSeen) ∧
            r.firstSeen = 700000 ∧ r.announces = 1 ∧ r.signPub = none ∧
            r'.firstSeen = 100 ∧ r'.announces = 2 ∧ r'.signPub = some [1])) = some true := by
    decide +kernel
  obtain ⟨⟨c, os⟩, hx, hrun⟩ := Option.bind_eq_some_iff.mp hrun
  obtain ⟨r, hr, hrun⟩ := Option.bind_eq_some_iff.mp hrun
  obtain ⟨r', hr', hdec⟩ := Option.map_eq_some_iff.mp hrun
  obtain ⟨hbuf, hfields⟩ := of_decide_eq_true hdec
  exact ⟨c, os, r, r', hx, fun n h hb => hbuf (n, h) (OrderedDict.get?_eq_some_iff.mp hb), hr, hr',
    hfields⟩

end Beachedmesh
