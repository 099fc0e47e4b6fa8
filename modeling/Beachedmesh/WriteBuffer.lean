import Beachedmesh.ColdStore

/-!
# Reading through the write buffer

`get` answers from the buffered tuple when there is one. That tuple knows neither
the row's first hearing nor its count, nor the keys that only the row has; a
flush puts them together. The two answers agree exactly when nothing has to be
put together.
-/
namespace Beachedmesh
open Machine

inductive ColdOp where
  | buffer (nodeId : NodeId) (h : Hearing) (mono : ℚ)
  | flush (mono : ℚ)
  | expire (ttl now : ℚ)
  deriving DecidableEq

namespace ColdStore

def step (c : ColdStore) : ColdOp → Option (ColdStore × Unit)
  | .buffer nodeId h mono => some (c.buffer nodeId h mono, ())
  | .flush mono => some (c.flush mono, ())
  | .expire ttl now => some (c.expire ttl now, ())

/-- Every row counts at least one announce: the schema's default is 1 and an
upsert adds to it. -/
def Counted (c : ColdStore) : Prop := ∀ n r, c.rows.get? n = some r → 1 ≤ r.announces

theorem Counted.flush {c : ColdStore} (h : c.Counted) (mono : ℚ) : (c.flush mono).Counted := by
  intro n r hr
  rw [get?_rows_flush] at hr
  cases hb : c.buf.get? n with
  | none => exact h n r (by simpa [hb] using hr)
  | some b =>
    obtain rfl : Row.upsert (c.rows.get? n) b = r := by simpa [hb] using hr
    cases c.rows.get? n with
    | none => exact le_rfl
    | some r => exact Nat.le_add_left 1 r.announces

theorem Counted.step {c c' : ColdStore} (h : c.Counted) {op : ColdOp} {o : Unit}
    (hx : c.step op = some (c', o)) : c'.Counted := by
  cases op with
  | buffer n b mono =>
    obtain ⟨rfl, -⟩ := Prod.mk.inj (Option.some.inj hx)
    have hins : ({ c with buf := c.buf.insert n (c.merge n b) } : ColdStore).Counted := h
    rw [buffer_eq]
    split_ifs
    · exact hins.flush mono
    · exact hins
  | flush mono =>
    obtain ⟨rfl, -⟩ := Prod.mk.inj (Option.some.inj hx)
    exact h.flush mono
  | expire ttl now =>
    obtain ⟨rfl, -⟩ := Prod.mk.inj (Option.some.inj hx)
    intro n r hr
    rw [expire, OrderedDict.get?_filter] at hr
    exact h n r (Option.filter_eq_some_iff.mp hr).1

/-- The keys that `get` reports, `(None, None)` for an unknown node. -/
def keysOf (c : ColdStore) (nodeId : NodeId) : Option Bytes × Option Bytes :=
  match c.get nodeId with
  | some r => (r.signPub, r.encryptPub)
  | none => (none, none)

theorem coalesce_eq_left_iff {a b : Option Bytes} : a = coalesce a b ↔ (a = none → b = none) := by
  cases a <;> simp [coalesce, eq_comm]

/-- Buffered over nothing, a hearing reads back as the row it becomes. -/
theorem ofRow_ofHearing (n : NodeId) (h : Hearing) :
    ofRow n (Row.ofHearing h) = ofHearing n h := rfl

end ColdStore

/-- For every store reached from any database whose rows are counted: a flush
leaves the record that `get` returns as it was exactly when the node is not both
buffered and on disk; and it leaves the keys as they were exactly when the
buffered hearing lacks no key that the row has. -/
theorem get_flush_eq_iff {rows : OrderedDict NodeId Row} {mono₀ : ℚ}
    (hrows : (ColdStore.new rows mono₀).Counted) {ops : List ColdOp} {c : ColdStore}
    {os : List Unit} (hx : exec ColdStore.step (ColdStore.new rows mono₀) ops = some (c, os))
    (n : NodeId) (mono : ℚ) :
    (c.get n = (c.flush mono).get n ↔ ¬ (n ∈ c.buf.keys ∧ n ∈ c.rows.keys)) ∧
    (c.keysOf n = (c.flush mono).keysOf n ↔
      ∀ h r, c.buf.get? n = some h → c.rows.get? n = some r →
        (h.signPub = none → r.signPub = none) ∧ (h.encryptPub = none → r.encryptPub = none)) := by
  have hc : c.Counted :=
    exec_invariant (P := fun _ => True) (fun hs _ h => ColdStore.Counted.step hs h) hrows
      (by simp) hx
  simp only [ColdStore.keysOf, ColdStore.get_flush]
  simp only [ColdStore.get, OrderedDict.mem_keys_iff]
  cases hb : c.buf.get? n with
  | none => simp
  | some h =>
    cases hr : c.rows.get? n with
    | none => simp [Row.upsert, ColdStore.ofRow_ofHearing]
    | some r =>
      have hann := hc n r hr
      have hne : ColdStore.ofHearing n h ≠ ColdStore.ofRow n (r.update h) := by
        intro he
        have := congrArg Route.announces he
        simp only [ColdStore.ofHearing, ColdStore.ofRow, Row.update] at this
        omega
      constructor
      · simp [Row.upsert, hne]
      · simp [Row.upsert, ColdStore.ofHearing, ColdStore.ofRow, Row.update,
          ColdStore.coalesce_eq_left_iff]

/-- A hearing with keys goes to disk, and a later one without is buffered. -/
def keyedThenKeyless : List ColdOp :=
  [.buffer (nodeIdOf 1) ⟨macOf 1, 0, none, 100, some [1], some [2], "x"⟩ 0, .flush 5,
    .buffer (nodeIdOf 1) ⟨macOf 1, 0, none, 200, none, none, ""⟩ 6]

theorem get_flush_iff_keyedThenKeyless :
    ∃ c os, exec ColdStore.step (ColdStore.new OrderedDict.empty 0) keyedThenKeyless =
        some (c, os) ∧
      (c.get (nodeIdOf 1) = (c.flush 10).get (nodeIdOf 1) ↔
        ¬ (nodeIdOf 1 ∈ c.buf.keys ∧ nodeIdOf 1 ∈ c.rows.keys)) ∧
      (c.get (nodeIdOf 2) = (c.flush 10).get (nodeIdOf 2) ↔
        ¬ (nodeIdOf 2 ∈ c.buf.keys ∧ nodeIdOf 2 ∈ c.rows.keys)) := by
  have hcounted : (ColdStore.new OrderedDict.empty 0).Counted := by
    intro n r hr
    cases hr
  have hsome : (exec ColdStore.step (ColdStore.new OrderedDict.empty 0)
      keyedThenKeyless).isSome = true := rfl
  obtain ⟨⟨c, os⟩, hx⟩ := Option.isSome_iff_exists.mp hsome
  exact ⟨c, os, hx, (get_flush_eq_iff hcounted hx (nodeIdOf 1) 10).1,
    (get_flush_eq_iff hcounted hx (nodeIdOf 2) 10).1⟩

/-- The flush changes that record, and until it the keys are missing. -/
theorem flush_changes_get :
    ∃ c os, exec ColdStore.step (ColdStore.new OrderedDict.empty 0) keyedThenKeyless =
        some (c, os) ∧
      c.get (nodeIdOf 1) ≠ (c.flush 10).get (nodeIdOf 1) ∧
      c.keysOf (nodeIdOf 1) = (none, none) ∧
      (c.flush 10).keysOf (nodeIdOf 1) = (some [1], some [2]) := by
  refine ⟨_, _, rfl, ?_, ?_, ?_⟩
  all_goals decide +kernel

end Beachedmesh
