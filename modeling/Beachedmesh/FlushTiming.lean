import Beachedmesh.WriteBuffer

/-!
# The time of a flush does not matter

Read a store as the table that a flush would leave on disk, first hearings and counts
aside. Buffering a hearing puts it over what that table has for the node, and a flush
leaves the table alone: the buffer's `or` and the upsert's `COALESCE` and `CASE` are one
associative merge as long as no key is empty. So the last flush writes the same rows
wherever the earlier ones stood.
-/
namespace Beachedmesh
open Machine

/-! ### One merge -/

/-- What a row says of its node, first hearing and count aside. -/
def Row.known (r : Row) : Hearing :=
  ⟨r.nextHop, r.hops, r.rssi, r.lastSeen, r.signPub, r.encryptPub, r.name⟩

/-- No key is empty. -/
structure Hearing.Proper (h : Hearing) : Prop where
  signPub : h.signPub ≠ some []
  encryptPub : h.encryptPub ≠ some []

instance (h : Hearing) : Decidable h.Proper :=
  decidable_of_iff (h.signPub ≠ some [] ∧ h.encryptPub ≠ some [])
    ⟨fun ⟨hs, he⟩ => ⟨hs, he⟩, fun ⟨hs, he⟩ => ⟨hs, he⟩⟩

/-- A hearing over what was known, if anything was. -/
def Hearing.after (h : Hearing) : Option Hearing → Hearing
  | some prev => h.over prev
  | none => h

theorem orKey_assoc (a b d : Option Bytes) : orKey (orKey a b) d = orKey a (orKey b d) := by
  rcases a with - | - | ⟨x, k⟩ <;> rfl

theorem orName_assoc (a b d : String) : orName (orName a b) d = orName a (orName b d) := by
  unfold orName
  by_cases ha : a = "" <;> simp [ha]

theorem orKey_eq_coalesce {a : Option Bytes} (ha : a ≠ some []) (b : Option Bytes) :
    orKey a b = coalesce a b := by
  rcases a with - | - | ⟨x, k⟩
  · rfl
  · exact absurd rfl ha
  · rfl

theorem orKey_ne_nil {a b : Option Bytes} (ha : a ≠ some []) (hb : b ≠ some []) :
    orKey a b ≠ some [] := by
  rcases a with - | - | ⟨x, k⟩
  · exact hb
  · exact absurd rfl ha
  · simp [orKey]

namespace Hearing

theorem over_assoc (h g o : Hearing) : (h.over g).over o = h.over (g.over o) := by
  simp only [Hearing.over, orKey_assoc, orName_assoc]

theorem Proper.over {h prev : Hearing} (hh : h.Proper) (hp : prev.Proper) : (h.over prev).Proper :=
  ⟨orKey_ne_nil hh.signPub hp.signPub, orKey_ne_nil hh.encryptPub hp.encryptPub⟩

/-- A hearing that was put over another one before is put over what is known as a whole. -/
theorem over_after (h g : Hearing) (k : Option Hearing) :
    (h.over g).after k = h.after (some (g.after k)) := by
  cases k with
  | none => rfl
  | some o => exact over_assoc h g o

/-- The upsert is the same merge. -/
theorem Proper.known_upsert {h : Hearing} (hh : h.Proper) (old : Option Row) :
    (Row.upsert old h).known = h.after (old.map Row.known) := by
  cases old with
  | none => rfl
  | some r =>
    simp only [Row.upsert, Row.update, Row.known, Option.map_some, after, Hearing.over, orName,
      orKey_eq_coalesce hh.signPub, orKey_eq_coalesce hh.encryptPub]
    by_cases hn : h.name = "" <;> simp [hn]

/-- A key or a name that `h` has, `h'` has too. -/
structure Keeps (h h' : Hearing) : Prop where
  signPub : h.signPub.isSome → h'.signPub.isSome
  encryptPub : h.encryptPub.isSome → h'.encryptPub.isSome
  name : h.name ≠ "" → h'.name ≠ ""

theorem Keeps.refl (h : Hearing) : h.Keeps h := ⟨id, id, id⟩

theorem Keeps.trans {h g o : Hearing} (h₁ : h.Keeps g) (h₂ : g.Keeps o) : h.Keeps o :=
  ⟨h₂.signPub ∘ h₁.signPub, h₂.encryptPub ∘ h₁.encryptPub, h₂.name ∘ h₁.name⟩

theorem keeps_over (h prev : Hearing) : prev.Keeps (h.over prev) := by
  have hkey {a b : Option Bytes} (hb : b.isSome) : (orKey a b).isSome := by
    rcases a with - | - | ⟨x, k⟩
    · exact hb
    · exact hb
    · rfl
  refine ⟨hkey, hkey, fun hn => ?_⟩
  simp only [Hearing.over, orName]
  split_ifs with he
  · exact hn
  · exact he

/-- A proper hearing loses nothing to what it is put over. -/
theorem Proper.keeps_after {h : Hearing} (hh : h.Proper) (prev : Hearing) :
    h.Keeps (h.after (some prev)) := by
  have hkey {a b : Option Bytes} (hne : a ≠ some []) (ha : a.isSome) : (orKey a b).isSome := by
    rcases a with - | - | ⟨x, k⟩
    · cases ha
    · exact absurd rfl hne
    · rfl
  refine ⟨hkey hh.signPub, hkey hh.encryptPub, fun hn => ?_⟩
  simp only [after, Hearing.over, orName, if_neg hn]
  exact hn

end Hearing

/-! ### The table that a flush would leave -/

namespace ColdStore

def known (c : ColdStore) (n : NodeId) : Option Hearing :=
  match c.buf.get? n with
  | some h => some (h.after ((c.rows.get? n).map Row.known))
  | none => (c.rows.get? n).map Row.known

/-- Every buffered hearing is proper. -/
def Proper (c : ColdStore) : Prop := ∀ n h, c.buf.get? n = some h → h.Proper

variable {c : ColdStore}

theorem proper_new (rows : OrderedDict NodeId Row) (mono : ℚ) : (new rows mono).Proper := by
  intro n h hb
  cases hb

theorem Proper.flush (mono : ℚ) : (c.flush mono).Proper := by
  intro n h hb
  rw [buf_flush] at hb
  cases hb

/-- What is on disk after a flush. -/
theorem Proper.known_rows_flush (hc : c.Proper) (mono : ℚ) (n : NodeId) :
    ((c.flush mono).rows.get? n).map Row.known = c.known n := by
  rw [get?_rows_flush, known]
  cases hb : c.buf.get? n with
  | none => rfl
  | some h => exact congrArg some ((hc n h hb).known_upsert _)

theorem Proper.known_flush (hc : c.Proper) (mono : ℚ) (n : NodeId) :
    (c.flush mono).known n = c.known n := by
  rw [← hc.known_rows_flush mono, known, buf_flush]
  rfl

/-- A hearing on its way into the buffer, before any flush it forces. -/
def enter (c : ColdStore) (n : NodeId) (h : Hearing) : ColdStore :=
  { c with buf := c.buf.insert n (c.merge n h) }

theorem buffer_cases (c : ColdStore) (n : NodeId) (h : Hearing) (mono : ℚ) :
    c.buffer n h mono = c.enter n h ∨ c.buffer n h mono = (c.enter n h).flush mono := by
  rw [buffer_eq]
  split_ifs
  · exact Or.inr rfl
  · exact Or.inl rfl

theorem Proper.enter (hc : c.Proper) {h : Hearing} (hh : h.Proper) (n : NodeId) :
    (c.enter n h).Proper := by
  intro m g hg
  simp only [ColdStore.enter, OrderedDict.get?_insert] at hg
  split_ifs at hg with hm
  · obtain rfl := Option.some.inj hg
    unfold merge
    cases hp : c.buf.get? n with
    | none => exact hh
    | some prev => exact hh.over (hc n prev hp)
  · exact hc m g hg

theorem known_enter (c : ColdStore) (n : NodeId) (h : Hearing) (m : NodeId) :
    (c.enter n h).known m = if m = n then some (h.after (c.known n)) else c.known m := by
  simp only [known, enter, OrderedDict.get?_insert]
  split_ifs with hm
  · subst hm
    unfold merge
    cases c.buf.get? m with
    | none => rfl
    | some prev => exact congrArg some (Hearing.over_after h prev _)
  · rfl

end ColdStore

/-! ### Runs -/

namespace ColdOp

/-- A proper hearing or a flush. -/
def IsWrite : ColdOp → Prop
  | .buffer _ h _ => h.Proper
  | .flush _ => True
  | .expire _ _ => False

instance (op : ColdOp) : Decidable op.IsWrite :=
  match op with
  | .buffer _ h _ => inferInstanceAs (Decidable h.Proper)
  | .flush _ => isTrue trivial
  | .expire _ _ => isFalse id

/-- The hearing of a call of `buffer`. -/
def hearing? : ColdOp → Option (NodeId × Hearing)
  | .buffer n h _ => some (n, h)
  | _ => none

end ColdOp

/-- A table of what is known, with one more hearing. -/
def hear (k : NodeId → Option Hearing) (e : NodeId × Hearing) : NodeId → Option Hearing :=
  Function.update k e.1 (some (e.2.after (k e.1)))

namespace ColdStore

variable {c c' : ColdStore} {op : ColdOp} {ops : List ColdOp} {o : Unit} {os : List Unit}

theorem Proper.buffer (hc : c.Proper) {h : Hearing} (hh : h.Proper) (n : NodeId) (mono : ℚ) :
    (c.buffer n h mono).Proper := by
  rcases buffer_cases c n h mono with he | he <;> rw [he]
  · exact hc.enter hh n
  · exact Proper.flush mono

theorem Proper.step (hc : c.Proper) (hw : op.IsWrite) (hx : c.step op = some (c', o)) :
    c'.Proper := by
  cases op with
  | buffer n h mono =>
    obtain ⟨rfl, -⟩ := Prod.mk.inj (Option.some.inj hx)
    exact hc.buffer hw n mono
  | flush mono =>
    obtain ⟨rfl, -⟩ := Prod.mk.inj (Option.some.inj hx)
    exact Proper.flush mono
  | expire ttl now => exact hw.elim

/-- The store does to its table what the hearing says, and a flush does nothing to it. -/
theorem known_step (hc : c.Proper) (hw : op.IsWrite) (hx : c.step op = some (c', o)) :
    c'.known = op.hearing?.elim c.known (hear c.known) := by
  cases op with
  | buffer n h mono =>
    obtain ⟨rfl, -⟩ := Prod.mk.inj (Option.some.inj hx)
    have henter : (c.enter n h).known = hear c.known (n, h) := by
      funext m
      rw [known_enter, hear, Function.update_apply]
    rcases buffer_cases c n h mono with he | he <;> rw [he]
    · exact henter
    · funext m
      rw [(hc.enter hw n).known_flush, henter]
      rfl
  | flush mono =>
    obtain ⟨rfl, -⟩ := Prod.mk.inj (Option.some.inj hx)
    funext m
    exact hc.known_flush mono m
  | expire ttl now => exact hw.elim

/-- A run refines the fold of its hearings over the table. -/
theorem known_exec (hc : c.Proper) (hw : ∀ op ∈ ops, op.IsWrite)
    (hx : exec step c ops = some (c', os)) :
    c'.Proper ∧ c'.known = (ops.filterMap ColdOp.hearing?).foldl hear c.known := by
  induction ops generalizing c os with
  | nil =>
    obtain ⟨rfl, -⟩ := Prod.mk.inj (Option.some.inj hx)
    exact ⟨hc, rfl⟩
  | cons op ops ih =>
    obtain ⟨c₁, o, os', h₁, h₂, -⟩ := exec_cons_iff.mp hx
    have hop := hw op (by simp)
    obtain ⟨hproper, hknown⟩ := ih (hc.step hop h₁) (fun op' h' => hw op' (by simp [h'])) h₂
    refine ⟨hproper, ?_⟩
    rw [hknown, known_step hc hop h₁, List.filterMap_cons]
    cases op.hearing? <;> rfl

/-! ### Nothing that is known is forgotten -/

/-- What `c` has buffered or stored for a node, `c'` has too, on disk if not in the buffer. -/
structure Retains (c c' : ColdStore) : Prop where
  onDisk : ∀ n r, c.rows.get? n = some r → ∃ r', c'.rows.get? n = some r' ∧
    r.known.Keeps r'.known
  buffered : ∀ n h, c.buf.get? n = some h → (∃ h', c'.buf.get? n = some h' ∧ h.Keeps h') ∨
    ∃ r, c'.rows.get? n = some r ∧ h.Keeps r.known

theorem Retains.refl (c : ColdStore) : c.Retains c where
  onDisk _ r hr := ⟨r, hr, Hearing.Keeps.refl _⟩
  buffered _ h hh := Or.inl ⟨h, hh, Hearing.Keeps.refl h⟩

theorem Retains.trans {c₁ c₂ c₃ : ColdStore} (h : c₁.Retains c₂) (h' : c₂.Retains c₃) :
    c₁.Retains c₃ where
  onDisk n r hr := by
    obtain ⟨r₂, hr₂, hk⟩ := h.onDisk n r hr
    obtain ⟨r₃, hr₃, hk'⟩ := h'.onDisk n r₂ hr₂
    exact ⟨r₃, hr₃, hk.trans hk'⟩
  buffered n g hg := by
    rcases h.buffered n g hg with ⟨g₂, hg₂, hk⟩ | ⟨r₂, hr₂, hk⟩
    · rcases h'.buffered n g₂ hg₂ with ⟨g₃, hg₃, hk'⟩ | ⟨r₃, hr₃, hk'⟩
      · exact Or.inl ⟨g₃, hg₃, hk.trans hk'⟩
      · exact Or.inr ⟨r₃, hr₃, hk.trans hk'⟩
    · obtain ⟨r₃, hr₃, hk'⟩ := h'.onDisk n r₂ hr₂
      exact Or.inr ⟨r₃, hr₃, hk.trans hk'⟩

theorem retains_enter (c : ColdStore) (n : NodeId) (h : Hearing) : c.Retains (c.enter n h) where
  onDisk _ r hr := ⟨r, hr, Hearing.Keeps.refl _⟩
  buffered m g hg := by
    refine Or.inl ?_
    simp only [enter, OrderedDict.get?_insert]
    split_ifs with hm
    · subst hm
      refine ⟨_, rfl, ?_⟩
      rw [merge, hg]
      exact Hearing.keeps_over h g
    · exact ⟨g, hg, Hearing.Keeps.refl g⟩

theorem Proper.retains_flush (hc : c.Proper) (mono : ℚ) : c.Retains (c.flush mono) := by
  have hrow (n : NodeId) {h : Hearing} (hh : c.buf.get? n = some h) :
      (c.flush mono).rows.get? n = some (Row.upsert (c.rows.get? n) h) := by
    rw [get?_rows_flush, hh]
  refine ⟨fun n r hr => ?_, fun n h hh => Or.inr ⟨_, hrow n hh, ?_⟩⟩
  · cases hb : c.buf.get? n with
    | none => exact ⟨r, by rw [get?_rows_flush, hb, hr], Hearing.Keeps.refl _⟩
    | some h =>
      refine ⟨_, hrow n hb, ?_⟩
      rw [(hc n h hb).known_upsert, hr]
      exact Hearing.keeps_over h r.known
  · rw [(hc n h hh).known_upsert]
    cases c.rows.get? n with
    | none => exact Hearing.Keeps.refl h
    | some r => exact (hc n h hh).keeps_after r.known

theorem Proper.retains_step (hc : c.Proper) (hw : op.IsWrite) (hx : c.step op = some (c', o)) :
    c.Retains c' := by
  cases op with
  | buffer n h mono =>
    obtain ⟨rfl, -⟩ := Prod.mk.inj (Option.some.inj hx)
    have henter := retains_enter c n h
    rcases buffer_cases c n h mono with he | he <;> rw [he]
    · exact henter
    · exact henter.trans ((hc.enter hw n).retains_flush mono)
  | flush mono =>
    obtain ⟨rfl, -⟩ := Prod.mk.inj (Option.some.inj hx)
    exact hc.retains_flush mono
  | expire ttl now => exact hw.elim

theorem Proper.retains_exec (hc : c.Proper) (hw : ∀ op ∈ ops, op.IsWrite)
    (hx : exec ColdStore.step c ops = some (c', os)) : c.Retains c' := by
  refine (exec_invariant (P := ColdOp.IsWrite)
    (fun {s : ColdStore} {_ _ _} (hs : s.Proper ∧ c.Retains s) hop hstep => ?_)
    ⟨hc, Retains.refl c⟩ hw hx).2
  exact ⟨hs.1.step hop hstep, hs.2.trans (hs.1.retains_step hop hstep)⟩

end ColdStore

/-- Take two runs of hearings and flushes over one database that buffer the same hearings in
the same order, and flush both at their end. For every node the rows agree in everything but
the first hearing and the count, and whatever a run has buffered or stored of keys and names
it still has at its end. -/
theorem flush_timing_irrelevant {rows : OrderedDict NodeId Row} {mono₁ mono₂ : ℚ}
    {ops₁ ops₂ : List ColdOp} (hw₁ : ∀ op ∈ ops₁, op.IsWrite) (hw₂ : ∀ op ∈ ops₂, op.IsWrite)
    (hsame : ops₁.filterMap ColdOp.hearing? = ops₂.filterMap ColdOp.hearing?)
    {c₁ c₂ : ColdStore} {os₁ os₂ : List Unit}
    (hx₁ : exec ColdStore.step (ColdStore.new rows mono₁) ops₁ = some (c₁, os₁))
    (hx₂ : exec ColdStore.step (ColdStore.new rows mono₂) ops₂ = some (c₂, os₂))
    (done₁ done₂ : ℚ) :
    (∀ n, ((c₁.flush done₁).rows.get? n).map Row.known =
      ((c₂.flush done₂).rows.get? n).map Row.known) ∧
    ∀ pre post c os, ops₁ = pre ++ post →
      exec ColdStore.step (ColdStore.new rows mono₁) pre = some (c, os) →
      c.Retains c₁ ∧ c.Retains (c₁.flush done₁) := by
  obtain ⟨hp₁, hk₁⟩ := ColdStore.known_exec (ColdStore.proper_new rows mono₁) hw₁ hx₁
  obtain ⟨hp₂, hk₂⟩ := ColdStore.known_exec (ColdStore.proper_new rows mono₂) hw₂ hx₂
  refine ⟨fun n => ?_, fun pre post c os hsplit hpre => ?_⟩
  · have hstart : (ColdStore.new rows mono₁).known = (ColdStore.new rows mono₂).known := rfl
    rw [hp₁.known_rows_flush, hp₂.known_rows_flush, hk₁, hk₂, hsame, hstart]
  · subst hsplit
    obtain ⟨s, os₃, os₄, hs, hpost, -⟩ := exec_append_iff.mp hx₁
    obtain ⟨rfl, -⟩ := Prod.mk.inj (Option.some.inj (hpre.symm.trans hs))
    have hproper := (ColdStore.known_exec (ColdStore.proper_new rows mono₁)
      (fun op hop => hw₁ op (List.mem_append_left _ hop)) hs).1
    have hret := hproper.retains_exec (fun op hop => hw₁ op (List.mem_append_right _ hop)) hpost
    exact ⟨hret, hret.trans (hp₁.retains_flush done₁)⟩

/-- A hearing with keys and one without, flushed in between or only at the end. -/
theorem flush_timing_irrelevant_two :
    ∃ c₁ os₁ c₂ os₂,
      exec ColdStore.step (ColdStore.new OrderedDict.empty 0) keyedThenKeyless = some (c₁, os₁) ∧
      exec ColdStore.step (ColdStore.new OrderedDict.empty 0)
        (keyedThenKeyless.filter fun op => op.hearing?.isSome) = some (c₂, os₂) ∧
      ((c₁.flush 10).rows.get? (nodeIdOf 1)).map Row.known =
        some ⟨macOf 1, 0, none, 200, some [1], some [2], "x"⟩ ∧
      ∀ n, ((c₁.flush 10).rows.get? n).map Row.known =
        ((c₂.flush 10).rows.get? n).map Row.known := by
  refine ⟨_, _, _, _, rfl, rfl, by decide +kernel, ?_⟩
  have hw₁ : ∀ op ∈ keyedThenKeyless, op.IsWrite := by decide +kernel
  have hw₂ : ∀ op ∈ keyedThenKeyless.filter fun op => op.hearing?.isSome, op.IsWrite :=
    fun op hop => hw₁ op (List.mem_of_mem_filter hop)
  exact (flush_timing_irrelevant hw₁ hw₂ (by decide +kernel) rfl rfl 10 10).1

end Beachedmesh
