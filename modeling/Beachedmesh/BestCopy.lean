import Beachedmesh.Settling
import Mathlib.Data.List.MinMax
import Mathlib.Data.Prod.Lex

/-!
# The best copy of a flood

`rank` orders the copies of one announce: fewer hops first, then the stronger
signal, an unknown one last. From the first copy on, the table holds the best
copy so far, as its route or as the settle that will replace an older route;
the tick that commits the settle moves it from one place to the other.
-/
namespace Beachedmesh
open Machine

/-- Fewer hops, then the stronger signal; `None` is the weakest. -/
def Copy.rank (c : Copy) : ℕ ×ₗ ℤ := toLex (c.hops, -c.rssi.getD noRssi)

theorem Copy.rank_lt_iff {a b : Copy} : a.rank < b.rank ↔
    a.hops < b.hops ∨ a.hops = b.hops ∧ b.rssi.getD noRssi < a.rssi.getD noRssi := by
  simp [Copy.rank, Prod.Lex.toLex_lt_toLex]

/-- A signal that the packed entry tells from an unknown one. -/
def Copy.Audible (c : Copy) : Prop := ∀ r ∈ c.rssi, -127 ≤ r ∧ r ≤ 127

instance (c : Copy) : Decidable c.Audible :=
  inferInstanceAs (Decidable (∀ r ∈ c.rssi, -127 ≤ r ∧ r ≤ 127))

theorem Copy.Audible.noRssi_le {c : Copy} (h : c.Audible) : noRssi ≤ c.rssi.getD noRssi := by
  cases hr : c.rssi with
  | none => exact le_rfl
  | some r =>
    have := (h r hr).1
    simp only [Option.getD_some, noRssi]
    omega

theorem stronger_iff {rssi : Option ℤ} {old : ℤ} (h : noRssi ≤ old) :
    stronger rssi old = true ↔ old < rssi.getD noRssi := by
  cases rssi with
  | none => simpa [stronger] using h
  | some r => simp [stronger]

/-- The entry that a commit of the copy writes, its time aside. -/
structure Packed.Carries (e : Packed) (c : Copy) : Prop where
  nextHop_eq : e.nextHop = c.nextHop
  hops_eq : e.hops = c.hops
  rssi_eq : e.rssi = c.rssi.getD noRssi

/-- The better of two copies, the first one where they rank alike. -/
def Copy.better (b c : Copy) : Copy := if c.rank < b.rank then c else b

theorem argmin_rank_concat {cs : List Copy} {b : Copy} (h : cs.argmin Copy.rank = some b)
    (c : Copy) : (cs ++ [c]).argmin Copy.rank = some (b.better c) := by
  rw [List.argmin_concat, h, Copy.better]
  split_ifs with hlt
  · exact if_pos hlt
  · exact if_neg hlt

namespace RouteTable

variable {t t' : RouteTable} {x : NodeId} {t₁ : ℚ} {b : Copy}

/-- The flood that began at `t₁` stands at the copy `b`: the route carries it, or the
settle that will replace an older and shorter route. -/
inductive Stands (t : RouteTable) (x : NodeId) (t₁ : ℚ) (b : Copy) : Prop
  | held (e : Packed) : t.hot.get? x = some e → t.pending.get? x = none →
      t₁ < e.lastSeen + 1 → e.Carries b → Stands t x t₁ b
  | waiting (e : Packed) : t.hot.get? x = some e → t.pending.get? x =
      some ⟨t₁ + settleAfter, b.nextHop, b.hops, b.rssi.getD noRssi⟩ →
      floodGuard < t₁ - e.lastSeen → e.hops < b.hops → Stands t x t₁ b

/-- A commit makes its copy the route. -/
theorem stands_commit {c : Copy} {now mono : ℚ} (h₁ : t₁ ≤ now)
    (h : (t.dropPending c.nodeId).commit c now mono = some t')
    (hkeep : (t'.hot.get? c.nodeId).isSome) : t'.Stands c.nodeId t₁ c := by
  obtain ⟨e', he'⟩ := Option.isSome_iff_exists.mp hkeep
  obtain ⟨e, he, rfl⟩ := commit_eq_some_iff.mp h
  obtain ⟨hnh, hhops, hrssi, hseen⟩ := pack_eq_some_iff.mp he
  obtain rfl : e' = e := by
    rcases get?_of_get?_place (t := t.dropPending c.nodeId) he' with ⟨-, heq⟩ | ⟨hne, -⟩
    · exact heq
    · exact absurd rfl hne
  refine .held e' he' ?_ ?_ ⟨hnh, hhops, hrssi⟩
  · show (t.pending.erase c.nodeId).get? c.nodeId = none
    rw [OrderedDict.get?_erase, if_pos rfl]
  · have hlt := lt_pyInt_add_one now
    have hcast : (e'.lastSeen : ℚ) = pyInt now := by exact_mod_cast hseen
    rw [hcast]
    linarith

/-- The first copy: nothing is pending, and the guard of the route has passed. -/
theorem stands_first {c : Copy} (hown : t.ownId ≠ some c.nodeId)
    (hp : t.pending.get? c.nodeId = none) {now mono : ℚ}
    (hlate : ∀ e, t.hot.get? c.nodeId = some e → floodGuard < now - e.lastSeen)
    {v : LearnVerdict} (h : t.learn c now mono = some (v, t'))
    (hkeep : (t'.hot.get? c.nodeId).isSome) : t'.Stands c.nodeId now c := by
  cases learn_cases h with
  | self hself => exact absurd hself hown
  | committed v t' _ _ hcommit => exact stands_commit le_rfl hcommit hkeep
  | keptEqual old _ hold _ _ hg _ => exact absurd (hlate old hold) (not_lt.mpr hg)
  | settling old _ hold hlt hg =>
    refine .waiting old hold ?_ hg hlt
    show (t.sharpened c now).get? c.nodeId = _
    rw [get?_sharpened, if_pos rfl, hp]
    rfl
  | keptWorse old _ hold _ hg => exact absurd (hlate old hold) (not_lt.mpr hg)

/-- A later copy, over another neighbour: the better of the two stands. -/
theorem Stands.learn (hs : t.Stands x t₁ b) {c : Copy} (hx : c.nodeId = x)
    (hown : t.ownId ≠ some x) (hb : b.Audible) (hhop : c.nextHop ≠ b.nextHop) {now mono : ℚ}
    (h₁ : t₁ ≤ now) (h₂ : now ≤ t₁ + (floodGuard - 1)) {v : LearnVerdict}
    (h : t.learn c now mono = some (v, t')) (hkeep : (t'.hot.get? x).isSome) :
    t'.Stands x t₁ (b.better c) := by
  subst hx
  cases hs with
  | held e he hp hdate hcar =>
    have hguard : now - e.lastSeen ≤ floodGuard := by linarith
    have hstr : stronger c.rssi e.rssi = true ↔ b.rssi.getD noRssi < c.rssi.getD noRssi := by
      rw [stronger_iff (hcar.rssi_eq ▸ hb.noRssi_le), hcar.rssi_eq]
    cases learn_cases h with
    | self hself => exact absurd hself hown
    | committed v t' _ hc hcommit =>
      rw [he] at hc
      have hbetter : c.rank < b.rank := by
        rw [Copy.rank_lt_iff, ← hcar.hops_eq]
        cases hc with
        | shorter old hlt => exact Or.inl hlt
        | refreshed old _ hnh => exact absurd (hnh.trans hcar.nextHop_eq) hhop
        | swapped old heq _ hwhy =>
          exact Or.inr ⟨heq, hstr.mp (hwhy.resolve_left (not_lt.mpr hguard))⟩
      rw [Copy.better, if_pos hbetter]
      exact stands_commit h₁ hcommit hkeep
    | keptEqual old _ hold heq _ _ hweak =>
      obtain rfl := Option.some.inj (he.symm.trans hold)
      have hnot : ¬ c.rank < b.rank := by
        rw [Copy.rank_lt_iff, ← hcar.hops_eq, ← hstr, hweak]
        rintro (hlt | ⟨-, hfalse⟩)
        · omega
        · cases hfalse
      rw [Copy.better, if_neg hnot]
      refine .held e he ?_ hdate hcar
      show (t.pending.erase c.nodeId).get? c.nodeId = none
      rw [OrderedDict.get?_erase, if_pos rfl]
    | settling old _ hold _ hg =>
      obtain rfl := Option.some.inj (he.symm.trans hold)
      exact absurd hg (not_lt.mpr hguard)
    | keptWorse old _ hold hlt _ =>
      obtain rfl := Option.some.inj (he.symm.trans hold)
      have hnot : ¬ c.rank < b.rank := by
        rw [Copy.rank_lt_iff, ← hcar.hops_eq]
        rintro (hgt | ⟨heq, -⟩) <;> omega
      rw [Copy.better, if_neg hnot]
      exact .held e he hp hdate hcar
  | waiting e he hq hdate hlonger =>
    have hguard : floodGuard < now - e.lastSeen := by linarith
    cases learn_cases h with
    | self hself => exact absurd hself hown
    | committed v t' _ hc hcommit =>
      rw [he] at hc
      have hbetter : c.rank < b.rank := by
        rw [Copy.rank_lt_iff]
        cases hc with
        | shorter old hlt => exact Or.inl (hlt.trans hlonger)
        | refreshed old heq _ => exact Or.inl (heq ▸ hlonger)
        | swapped old heq _ _ => exact Or.inl (heq ▸ hlonger)
      rw [Copy.better, if_pos hbetter]
      exact stands_commit h₁ hcommit hkeep
    | keptEqual old _ hold _ _ hg _ =>
      obtain rfl := Option.some.inj (he.symm.trans hold)
      exact absurd hguard (not_lt.mpr hg)
    | settling old _ hold hlt _ =>
      obtain rfl := Option.some.inj (he.symm.trans hold)
      have hget := get?_sharpened t c now c.nodeId
      rw [if_pos rfl, hq, sharpen] at hget
      simp only [stronger_iff hb.noRssi_le, ← Copy.rank_lt_iff] at hget
      unfold Copy.better
      split_ifs at hget ⊢ with hbetter
      · exact .waiting e he hget hdate hlt
      · exact .waiting e he hget hdate hlonger
    | keptWorse old _ hold _ hg =>
      obtain rfl := Option.some.inj (he.symm.trans hold)
      exact absurd hguard (not_lt.mpr hg)

/-- A tick commits what has waited long enough. -/
theorem Stands.tick (hs : t.Stands x t₁ b) {clk : TickClock} (h : t.tick clk = some t')
    (hkeep : (t'.hot.get? x).isSome) :
    t'.Stands x t₁ b ∧ (t₁ + settleAfter ≤ clk.wall → t'.pending.get? x = none) := by
  obtain ⟨e', he'⟩ := Option.isSome_iff_exists.mp hkeep
  cases hs with
  | held e he hp hdate hcar =>
    cases tick_cases h x with
    | idle _ hp' hh _ =>
      obtain rfl := Option.some.inj (he.symm.trans (hh e' he'))
      exact ⟨.held e he' (hp'.trans hp) hdate hcar, fun _ => hp'.trans hp⟩
    | committed q k hq _ _ _ _ _ => cases hp.symm.trans hq
  | waiting e he hq hdate hlonger =>
    cases tick_cases h x with
    | idle hno hp' hh _ =>
      obtain rfl := Option.some.inj (he.symm.trans (hh e' he'))
      exact ⟨.waiting e he' (hp'.trans hq) hdate hlonger,
        fun hdue => absurd hdue (not_le.mpr (hno _ hq))⟩
    | committed q k hq' hdue hk hp' hh _ =>
      obtain rfl := Option.some.inj (hq.symm.trans hq')
      obtain rfl := hh e' he'
      obtain ⟨hnh, hhops, hrssi, hseen⟩ := pack_eq_some_iff.mp hk
      refine ⟨.held e' he' hp' ?_ ⟨hnh, hhops, hrssi⟩, fun _ => hp'⟩
      have hlt := lt_pyInt_add_one clk.wall
      have hcast : (e'.lastSeen : ℚ) = pyInt clk.wall := by exact_mod_cast hseen
      have hafter : (0 : ℚ) < settleAfter := by norm_num [settleAfter]
      rw [hcast]
      linarith

/-- Other traffic that does not lose the route. -/
theorem Stands.leaves (hs : t.Stands x t₁ b) (hl : t.Leaves x t')
    (hkeep : (t'.hot.get? x).isSome) : t'.Stands x t₁ b := by
  obtain ⟨e', he'⟩ := Option.isSome_iff_exists.mp hkeep
  cases hs with
  | held e he hp hdate hcar =>
    obtain rfl := Option.some.inj (he.symm.trans (hl.hot_eq (Option.isSome_of_eq_some he) he'))
    exact .held e he' (hl.pending.trans hp) hdate hcar
  | waiting e he hq hdate hlonger =>
    obtain rfl := Option.some.inj (he.symm.trans (hl.hot_eq (Option.isSome_of_eq_some he) he'))
    exact .waiting e he' (hl.pending.trans hq) hdate hlonger

end RouteTable

namespace RouteOp

/-- The copy that a step learns about `x`. -/
def copyOf (x : NodeId) : RouteOp → Option Copy
  | .learn c _ _ => if c.nodeId = x then some c else none
  | _ => none

end RouteOp

def copiesOf (x : NodeId) (ops : List RouteOp) : List Copy := ops.filterMap (RouteOp.copyOf x)

theorem copiesOf_concat (x : NodeId) (ops : List RouteOp) (op : RouteOp) :
    copiesOf x (ops ++ [op]) = copiesOf x ops ++ (op.copyOf x).toList := by
  rw [copiesOf, List.filterMap_append]
  cases h : op.copyOf x <;> simp [copiesOf, h]

/-- One flood: the first copy at `t₁`, then a run that ends with the tick `clk`. Any
other traffic may come between the copies. -/
structure OneFlood (t : RouteTable) (x : NodeId) (first : Copy) (t₁ : ℚ) (ops : List RouteOp)
    (clk : TickClock) : Prop where
  other : t.ownId ≠ some x
  idle : t.pending.get? x = none
  /-- A route held before was written at a time `t₀` that the guard has passed. -/
  past : ∀ e, t.hot.get? x = some e →
    ∃ t₀ : ℚ, 0 ≤ t₀ ∧ (e.lastSeen : ℤ) = pyInt t₀ ∧ floodGuard < t₁ - t₀
  about : first.nodeId = x
  clock : Clocked RouteOp.readings t₁ (ops ++ [.tick clk])
  window : ∀ c now mono, .learn c now mono ∈ ops → c.nodeId = x → now - t₁ ≤ floodGuard - 1
  neighbours : ((first :: copiesOf x ops).map Copy.nextHop).Nodup
  audible : ∀ c ∈ first :: copiesOf x ops, c.Audible
  noWarm : ∀ op ∈ ops, op.isWarm = false
  due : t₁ + settleAfter ≤ clk.wall

namespace RouteTable

/-- `x` is in the hot table. -/
def Holds (x : NodeId) (t : RouteTable) : Prop := (t.hot.get? x).isSome = true

instance (x : NodeId) : DecidablePred (Holds x) := fun _ => inferInstanceAs (Decidable (_ = _))

end RouteTable

open RouteTable

variable {t t' : RouteTable} {x : NodeId} {t₁ : ℚ} {first : Copy} {ops : List RouteOp}
  {clk : TickClock}

/-- The hot entry of the route that was held is older than the guard. -/
theorem OneFlood.late (h : OneFlood t x first t₁ ops clk) {e : Packed}
    (he : t.hot.get? x = some e) : floodGuard < t₁ - e.lastSeen := by
  obtain ⟨t₀, hnonneg, hseen, hpast⟩ := h.past e he
  have hle : (e.lastSeen : ℚ) ≤ t₀ := by
    have hfloor := Int.floor_le t₀
    rw [pyInt, if_pos hnonneg] at hseen
    have hcast : (e.lastSeen : ℚ) = ⌊t₀⌋ := by exact_mod_cast hseen
    linarith
  linarith

/-- What holds after a part of the run: the best copy so far stands. -/
theorem OneFlood.stands (h : OneFlood t x first t₁ ops clk) {u s : RouteTable} {mono : ℚ}
    {o : RouteOut} (hfirst : keeping (Holds x) step t (.learn first t₁ mono) = some (u, o))
    {pre post : List RouteOp} (hpre : ops = pre ++ post) {os : List RouteOut}
    (hx : exec (keeping (Holds x) step) u pre = some (s, os)) :
    s.ownId ≠ some x ∧ ∃ b, (first :: copiesOf x pre).argmin Copy.rank = some b ∧
      s.Stands x t₁ b := by
  obtain ⟨hstep, hkeep⟩ := keeping_eq_some_iff.mp hfirst
  obtain ⟨⟨v, u⟩, hl, he⟩ := Option.map_eq_some_iff.mp hstep
  obtain ⟨rfl, -⟩ := Prod.mk.inj he
  obtain rfl := h.about
  refine exec_prefix (fun pre s => s.ownId ≠ some first.nodeId ∧
    ∃ b, (first :: copiesOf first.nodeId pre).argmin Copy.rank = some b ∧
      s.Stands first.nodeId t₁ b) ⟨(config_learn hl).ownId_eq ▸ h.other, first, rfl,
        stands_first h.other h.idle (fun e he => h.late he) hl hkeep⟩ ?_ hpre hx
  rintro pre op post s os s' o rfl - ⟨hown, b, hb, hs⟩ hone
  obtain ⟨hone, hkeep⟩ := keeping_eq_some_iff.mp hone
  refine ⟨(config_step hone).ownId_eq ▸ hown, ?_⟩
  rw [copiesOf_concat, ← List.cons_append]
  have hother (hcopy : op.copyOf first.nodeId = none) (hs' : s'.Stands first.nodeId t₁ b) :
      ∃ b', (first :: copiesOf first.nodeId pre ++
          (op.copyOf first.nodeId).toList).argmin Copy.rank = some b' ∧
        s'.Stands first.nodeId t₁ b' := by
    rw [hcopy]
    exact ⟨b, by simpa using hb, hs'⟩
  have hclock {r : ℚ} (hr : r ∈ op.readings) : t₁ ≤ r := h.clock.le (i := op) (by simp) hr
  by_cases htick : ∃ clk', op = .tick clk'
  · obtain ⟨clk', rfl⟩ := htick
    obtain ⟨w, hw, he⟩ := Option.map_eq_some_iff.mp hone
    obtain ⟨rfl, -⟩ := Prod.mk.inj he
    exact hother rfl (hs.tick hw hkeep).1
  by_cases hlearn : ∃ c now mono, op = .learn c now mono ∧ c.nodeId = first.nodeId
  · obtain ⟨c, now, mono, rfl, hc⟩ := hlearn
    obtain ⟨⟨v, w⟩, hw, he⟩ := Option.map_eq_some_iff.mp hone
    obtain ⟨rfl, -⟩ := Prod.mk.inj he
    have hcopy : (RouteOp.learn c now mono).copyOf first.nodeId = some c := if_pos hc
    have hmem : b ∈ first :: copiesOf first.nodeId pre := List.argmin_mem hb
    have hcs := h.neighbours
    rw [show copiesOf first.nodeId (pre ++ .learn c now mono :: post) =
      copiesOf first.nodeId pre ++ c :: copiesOf first.nodeId post by simp [copiesOf, hcopy],
      ← List.cons_append, List.map_append, List.map_cons, List.nodup_append] at hcs
    have hhop : c.nextHop ≠ b.nextHop := fun heq =>
      hcs.2.2 b.nextHop (List.mem_map_of_mem hmem) c.nextHop (by simp) heq.symm
    have haud : b.Audible := h.audible b (by
      rcases List.mem_cons.mp hmem with rfl | hmem
      · simp
      · simp only [copiesOf, List.filterMap_append, List.mem_cons, List.mem_append]
        exact Or.inr (Or.inl hmem))
    have hwin := h.window c now mono (by simp) hc
    rw [hcopy]
    exact ⟨b.better c, argmin_rank_concat hb c,
      hs.learn hc hown haud hhop (hclock (by simp [RouteOp.readings])) (by linarith) hw hkeep⟩
  · have hl := leaves_step hone (x := first.nodeId)
      (fun c now mono heq hc => hlearn ⟨c, now, mono, heq, hc⟩)
      (fun clk' heq => htick ⟨clk', heq⟩) (h.noWarm op (by simp))
    refine hother ?_ (hs.leaves hl hkeep)
    cases op with
    | learn c now mono => exact if_neg fun hc => hlearn ⟨c, now, mono, rfl, hc⟩
    | _ => rfl

/-- After the tick that ends the flood, the best copy is the route. -/
theorem OneFlood.ends (h : OneFlood t x first t₁ ops clk) {mono : ℚ} {os : List RouteOut}
    (hx : exec (keeping (Holds x) step) t (.learn first t₁ mono :: ops ++ [.tick clk]) =
      some (t', os)) :
    t'.pending.get? x = none ∧ ∃ b e, (first :: copiesOf x ops).argmin Copy.rank = some b ∧
      t'.hot.get? x = some e ∧ e.Carries b := by
  rw [List.cons_append] at hx
  obtain ⟨u, o, os', hfirst, hx, -⟩ := exec_cons_iff.mp hx
  obtain ⟨s, os₁, os₂, hpre, hlast, -⟩ := exec_append_iff.mp hx
  obtain ⟨w, o', os₃, htick, hnil, -⟩ := exec_cons_iff.mp hlast
  obtain ⟨rfl, -⟩ := Prod.mk.inj (Option.some.inj hnil)
  obtain ⟨-, b, hb, hs⟩ := h.stands hfirst (List.append_nil ops).symm hpre
  obtain ⟨hstep, hkeep⟩ := keeping_eq_some_iff.mp htick
  obtain ⟨v, hv, he⟩ := Option.map_eq_some_iff.mp hstep
  obtain ⟨rfl, -⟩ := Prod.mk.inj he
  obtain ⟨hs', hdone⟩ := hs.tick hv hkeep
  have hp := hdone h.due
  refine ⟨hp, b, ?_⟩
  cases hs' with
  | held e he _ _ hcar => exact ⟨e, hb, he, hcar⟩
  | waiting e _ hq _ _ => cases hp.symm.trans hq

/-- Copies that all rank differently have one best copy, in whatever order. -/
theorem argmin_rank_perm {cs cs' : List Copy} (hperm : cs'.Perm cs)
    (hnd : (cs.map Copy.rank).Nodup) : cs'.argmin Copy.rank = cs.argmin Copy.rank := by
  cases hb : cs.argmin Copy.rank with
  | none =>
    rw [List.argmin_eq_none] at hb ⊢
    exact List.perm_nil.mp (hb ▸ hperm)
  | some b =>
    obtain ⟨hmem, hle, -⟩ := List.argmin_eq_some_iff.mp hb
    refine List.argmin_eq_some_iff.mpr ⟨hperm.mem_iff.mpr hmem,
      fun a ha => hle a (hperm.mem_iff.mp ha), fun a ha hab => ?_⟩
    have heq : a.rank = b.rank := le_antisymm hab (hle a (hperm.mem_iff.mp ha))
    rw [List.inj_on_of_nodup_map hnd (hperm.mem_iff.mp ha) hmem heq]

/-- One flood settles on its best copy: at its end nothing is pending and the route is
the copy with the fewest hops, then the strongest signal, then the earliest arrival.
Another run over the same copies, from whatever table and in whatever order, ends with
the same route if no two copies rank alike. -/
theorem settles_on_best (h : OneFlood t x first t₁ ops clk) {mono : ℚ} {os : List RouteOut}
    (hx : exec (keeping (Holds x) step) t (.learn first t₁ mono :: ops ++ [.tick clk]) =
      some (t', os)) :
    (t'.pending.get? x = none ∧ ∃ b e, (first :: copiesOf x ops).argmin Copy.rank = some b ∧
      t'.hot.get? x = some e ∧ e.Carries b) ∧
    ∀ {u u' : RouteTable} {first' : Copy} {u₁ : ℚ} {ops' : List RouteOp} {clk' : TickClock}
      {mono' : ℚ} {os' : List RouteOut}, OneFlood u x first' u₁ ops' clk' →
      exec (keeping (Holds x) step) u (.learn first' u₁ mono' :: ops' ++ [.tick clk']) =
        some (u', os') →
      (first' :: copiesOf x ops').Perm (first :: copiesOf x ops) →
      ((first :: copiesOf x ops).map Copy.rank).Nodup →
      ∃ e e', t'.hot.get? x = some e ∧ u'.hot.get? x = some e' ∧
        e'.nextHop = e.nextHop ∧ e'.hops = e.hops ∧ e'.rssi = e.rssi := by
  have hends := h.ends hx
  refine ⟨hends, fun hu hux hperm hnd => ?_⟩
  obtain ⟨-, b, e, hb, he, hcar⟩ := hends
  obtain ⟨-, b', e', hb', he', hcar'⟩ := hu.ends hux
  obtain rfl : b' = b :=
    Option.some.inj (hb'.symm.trans ((argmin_rank_perm hperm hnd).trans hb))
  exact ⟨e, e', he, he', hcar'.nextHop_eq.trans hcar.nextHop_eq.symm,
    hcar'.hops_eq.trans hcar.hops_eq.symm, hcar'.rssi_eq.trans hcar.rssi_eq.symm⟩

/-! ### A flood over a held route, and the same copies elsewhere -/

def sampleCopy (via : UInt8) (hops : ℕ) (rssi : Option ℤ) : Copy :=
  ⟨nodeIdOf 1, macOf via, hops, rssi, none, none, ""⟩

/-- A route of two hops, written at second 100. -/
def heldTable : RouteTable :=
  { RouteTable.new none defaultTtl none 10 with
    hot := OrderedDict.empty.insert (nodeIdOf 1)
      ⟨macOf 9, 2, -50, 100, by decide, by decide, by decide, by decide⟩ }

/-- Two longer copies after the first, with a tick and a look-up between them. -/
def longerCopies : List RouteOp :=
  [.tick ⟨2003 / 10, 0, 0, 0⟩, .learn (sampleCopy 4 3 none) (2004 / 10) 0, .nextHop (nodeIdOf 1),
    .learn (sampleCopy 5 3 (some (-60))) (2006 / 10) 0]

def reorderedCopies : List RouteOp :=
  [.learn (sampleCopy 3 4 (some (-70))) 500 0, .learn (sampleCopy 4 3 none) 501 0]

theorem oneFlood_longerCopies : OneFlood heldTable (nodeIdOf 1) (sampleCopy 3 4 (some (-70))) 200
    longerCopies ⟨2015 / 10, 0, 0, 0⟩ where
  other := by decide
  idle := rfl
  past := by
    intro e he
    obtain rfl := Option.some.inj he
    exact ⟨100, by norm_num, by decide, by norm_num [floodGuard]⟩
  about := rfl
  clock := by
    unfold Clocked
    decide +kernel
  window := by
    simp only [longerCopies, List.mem_cons, List.not_mem_nil, or_false, RouteOp.learn.injEq,
      reduceCtorEq, false_or]
    rintro c now mono (⟨-, rfl, -⟩ | ⟨-, rfl, -⟩) - <;> norm_num [floodGuard]
  neighbours := by decide
  audible := by decide
  noWarm := by decide
  due := by norm_num [settleAfter]

theorem oneFlood_reorderedCopies : OneFlood (RouteTable.new none defaultTtl none 10) (nodeIdOf 1)
    (sampleCopy 5 3 (some (-60))) 500 reorderedCopies ⟨502, 0, 0, 0⟩ where
  other := by decide
  idle := rfl
  past := by
    intro e he
    cases he
  about := rfl
  clock := by
    unfold Clocked
    decide +kernel
  window := by
    simp only [reorderedCopies, List.mem_cons, List.not_mem_nil, or_false, RouteOp.learn.injEq]
    rintro c now mono (⟨-, rfl, -⟩ | ⟨-, rfl, -⟩) - <;> norm_num [floodGuard]
  neighbours := by decide
  audible := by decide
  noWarm := by decide
  due := by norm_num [settleAfter]

/-- The settle of the one run and the routes of the other end alike. -/
theorem settles_on_best_sample : ∃ t' u' os os',
    exec (keeping (Holds (nodeIdOf 1)) step) heldTable
      (.learn (sampleCopy 3 4 (some (-70))) 200 0 :: longerCopies ++ [.tick ⟨2015 / 10, 0, 0, 0⟩]) =
        some (t', os) ∧
    exec (keeping (Holds (nodeIdOf 1)) step) (RouteTable.new none defaultTtl none 10)
      (.learn (sampleCopy 5 3 (some (-60))) 500 0 :: reorderedCopies ++ [.tick ⟨502, 0, 0, 0⟩]) =
        some (u', os') ∧
    t'.pending.get? (nodeIdOf 1) = none ∧
    ∃ e e', t'.hot.get? (nodeIdOf 1) = some e ∧ u'.hot.get? (nodeIdOf 1) = some e' ∧
      e'.nextHop = e.nextHop ∧ e'.hops = e.hops ∧ e'.rssi = e.rssi := by
  have ht : (exec (keeping (Holds (nodeIdOf 1)) step) heldTable
      (.learn (sampleCopy 3 4 (some (-70))) 200 0 :: longerCopies ++
        [.tick ⟨2015 / 10, 0, 0, 0⟩])).isSome = true := by decide +kernel
  have hu : (exec (keeping (Holds (nodeIdOf 1)) step) (RouteTable.new none defaultTtl none 10)
      (.learn (sampleCopy 5 3 (some (-60))) 500 0 :: reorderedCopies ++
        [.tick ⟨502, 0, 0, 0⟩])).isSome = true := by decide +kernel
  obtain ⟨⟨t', os⟩, ht⟩ := Option.isSome_iff_exists.mp ht
  obtain ⟨⟨u', os'⟩, hu⟩ := Option.isSome_iff_exists.mp hu
  obtain ⟨⟨hp, -⟩, hsame⟩ := settles_on_best oneFlood_longerCopies ht
  exact ⟨t', u', os, os', ht, hu, hp,
    hsame oneFlood_reorderedCopies hu (by decide) (by decide)⟩

end Beachedmesh
