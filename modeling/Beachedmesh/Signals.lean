import Beachedmesh.Bystander
import Beachedmesh.Eviction

/-!
# What is known of a signal

An unknown signal is `None` outside and -128 in a packed entry and in a settle. The
hearing of a kept route and a settle's commit pass the packed value on to the store,
which has no such code. In runs where neither happens to an unknown signal, every
number reported was heard.
-/
namespace Beachedmesh
open Machine

/-- A call of `learn` for the node carried the signal. -/
def SignalHeard (past : List RouteOp) (n : NodeId) (v : ℤ) : Prop :=
  ∃ c now mono, .learn c now mono ∈ past ∧ c.nodeId = n ∧ c.rssi = some v

theorem SignalHeard.mono {past past' : List RouteOp} {n : NodeId} {v : ℤ}
    (h : SignalHeard past n v) (hsub : past ⊆ past') : SignalHeard past' n v := by
  obtain ⟨c, now, mono, hmem, hc⟩ := h
  exact ⟨c, now, mono, hsub hmem, hc⟩

/-- The signals of a run: unknown, or in the range of the radio. -/
def RouteOp.InRange : RouteOp → Prop
  | .learn c _ _ => ∀ v, c.rssi = some v → -127 ≤ v ∧ v ≤ 127
  | _ => True

namespace RouteTable

/-- Every number reported was heard, and both kinds of look-up report the same. -/
structure SignalsTrue (past : List RouteOp) (t : RouteTable) : Prop where
  get : ∀ n full r v, t.get n full = some r → r.rssi = some v → SignalHeard past n v
  listed : ∀ r ∈ t.toList, ∀ v, r.rssi = some v → SignalHeard past r.nodeId v
  agree : ∀ n ∈ t.hot.keys, (t.get n false).map Route.rssi = (t.get n true).map Route.rssi

/-- The operation passes an unknown signal on as a number: it hears a node whose route
stands without a signal, or commits a settle without one. -/
def Leaks (t : RouteTable) : RouteOp → Prop
  | .learn c now _ => t.ownId ≠ some c.nodeId ∧
      ∃ old, t.hot.get? c.nodeId = some old ∧ old.rssi = noRssi ∧ ¬ old.Yields c now
  | .tick clk => ∃ n q, t.pending.get? n = some q ∧ q.commitAt ≤ clk.wall ∧ q.rssi = noRssi
  | _ => False

/-- The signals of one node: `P` holds of each, and the tiers have the same. -/
structure Signalled (P : ℤ → Prop) (t : RouteTable) (x : NodeId) : Prop where
  hot : ∀ e, t.hot.get? x = some e → e.rssi = noRssi ∨ P e.rssi
  pending : ∀ q, t.pending.get? x = some q → q.rssi = noRssi ∨ P q.rssi
  stored : ∀ b v, t.stored x = some b → b.rssi = some v → P v
  same : ∀ e b, t.hot.get? x = some e → t.stored x = some b → e.rssi = b.rssi.getD noRssi

variable {P Q : ℤ → Prop} {t t' : RouteTable} {x : NodeId}

theorem Signalled.mono (h : Signalled P t x) (hPQ : ∀ v, P v → Q v) : Signalled Q t x where
  hot := fun e he => (h.hot e he).imp_right (hPQ _)
  pending := fun q hq => (h.pending q hq).imp_right (hPQ _)
  stored := fun b v hb hv => hPQ v (h.stored b v hb hv)
  same := h.same

/-- What is left of the records was there before. -/
theorem Signalled.fewer (h : Signalled P t x)
    (hhot : ∀ e, t'.hot.get? x = some e → t.hot.get? x = some e)
    (hpending : t'.pending.get? x = t.pending.get? x)
    (hstored : ∀ b, t'.stored x = some b → t.stored x = some b) : Signalled P t' x where
  hot := fun e he => h.hot e (hhot e he)
  pending := fun q hq => h.pending q (hpending ▸ hq)
  stored := fun b v hb => h.stored b v (hstored b hb)
  same := fun e b he hb => h.same e b (hhot e he) (hstored b hb)

/-- A written signal is the copy's, or was unknown. -/
theorem getD_rssi {P : ℤ → Prop} {r : Option ℤ} (h : ∀ v, r = some v → P v) :
    r.getD noRssi = noRssi ∨ P (r.getD noRssi) := by
  cases r with
  | none => exact Or.inl rfl
  | some v => exact Or.inr (h v rfl)

/-- A commit writes one signal into both tiers. -/
theorem Signalled.commit (h : ∀ q, t.pending.get? x = some q → q.rssi = noRssi ∨ P q.rssi)
    {c : Copy} {now mono : ℚ} (hc : c.nodeId = x) (hP : ∀ v, c.rssi = some v → P v)
    (hx : t.commit c now mono = some t') : Signalled P t' x := by
  subst hc
  have hst := stored_commit (x := c.nodeId) hx
  rw [if_pos rfl] at hst
  obtain ⟨k, hk, rfl⟩ := commit_eq_some_iff.mp hx
  have hhot {e : Packed} (he : (t.place c.nodeId k).hot.get? c.nodeId = some e) :
      e.rssi = c.rssi.getD noRssi := by
    rcases get?_of_get?_place he with ⟨-, rfl⟩ | ⟨hne, -⟩
    · exact (pack_eq_some_iff.mp hk).2.2.1
    · exact absurd rfl hne
  have hbearing {b : Bearing} (hb : t.cold.map (fun _ => (c.hearing now).bearing) = some b) :
      b.rssi = c.rssi := by
    obtain ⟨s, -, rfl⟩ := Option.map_eq_some_iff.mp hb
    rfl
  refine ⟨fun e he => ?_, h, fun b v hb hv => ?_, fun e b he hb => ?_⟩
  · rw [hhot he]
    exact getD_rssi hP
  · exact hP v ((hbearing (hst ▸ hb)).symm.trans hv)
  · rw [hhot he, hbearing (hst ▸ hb)]

/-- A hearing of a route that stands repeats the signal of the entry. -/
theorem Signalled.heard {u : RouteTable} {c : Copy} {now mono : ℚ} {old : Packed}
    (h : Signalled P u c.nodeId) (hold : u.hot.get? c.nodeId = some old)
    (hknown : old.rssi ≠ noRssi) :
    Signalled P (u.note c.nodeId (old.heard c now) mono) c.nodeId := by
  have hP : P old.rssi := (h.hot old hold).resolve_left hknown
  have hbearing {b : Bearing}
      (hb : (u.note c.nodeId (old.heard c now) mono).stored c.nodeId = some b) :
      b.rssi = some old.rssi := by
    rw [stored_note, if_pos rfl] at hb
    obtain ⟨s, -, rfl⟩ := Option.map_eq_some_iff.mp hb
    rfl
  refine ⟨h.hot, h.pending, fun b v hb hv => ?_, fun e b he hb => ?_⟩
  · exact Option.some.inj ((hbearing hb).symm.trans hv) ▸ hP
  · obtain rfl := Option.some.inj (hold.symm.trans he)
    rw [hbearing hb]
    rfl

theorem Signalled.learn {c : Copy} {now mono : ℚ} {v : LearnVerdict} (h : Signalled P t x)
    (hP : c.nodeId = x → ∀ r, c.rssi = some r → P r) (hleak : ¬ t.Leaks (.learn c now mono))
    (hx : t.learn c now mono = some (v, t')) : Signalled P t' x := by
  by_cases hc : c.nodeId = x
  swap
  · have hl := leaves_learn hx hc
    exact h.fewer (fun e he => get?_hot_of_learn hx (Ne.symm hc) he) hl.pending hl.stored
  subst hc
  by_cases hown : t.ownId = some c.nodeId
  · cases learn_cases hx with
    | self _ => exact h
    | committed _ _ hother _ _ => exact absurd hown hother
    | keptEqual _ hother _ _ _ _ _ => exact absurd hown hother
    | settling _ hother _ _ _ => exact absurd hown hother
    | keptWorse _ hother _ _ _ => exact absurd hown hother
  rcases learn_replaces_or_stands hx hown with ⟨-, hcommit⟩ | ⟨old, hold, hstands, rfl⟩
  · refine Signalled.commit (t := t.dropPending c.nodeId) (fun q hq => ?_) rfl (hP rfl) hcommit
    rw [dropPending, OrderedDict.get?_erase, if_pos rfl] at hq
    cases hq
  · have hknown : old.rssi ≠ noRssi := fun hno => hleak ⟨hown, old, hold, hno, hstands⟩
    refine Signalled.heard (u := { t with pending := t.standing c now old })
      ⟨h.hot, fun q hq => ?_, h.stored, h.same⟩ hold hknown
    replace hq : (t.standing c now old).get? c.nodeId = some q := hq
    unfold standing at hq
    split_ifs at hq
    · rw [OrderedDict.get?_erase, if_pos rfl] at hq
      cases hq
    · rw [get?_sharpened, if_pos rfl] at hq
      cases hs : sharpen (t.pending.get? c.nodeId) c now with
      | none =>
        rw [hs, Option.none_or] at hq
        exact h.pending q hq
      | some p =>
        rw [hs, Option.some_or] at hq
        obtain rfl := Option.some.inj hq
        have hrssi : p.rssi = c.rssi.getD noRssi := by
          unfold sharpen at hs
          split at hs
          · exact (Option.some.inj hs) ▸ rfl
          · split_ifs at hs
            exact (Option.some.inj hs) ▸ rfl
        rw [hrssi]
        exact getD_rssi (hP rfl)
    · exact h.pending q hq

/-- A settle commits the signal that it was opened or sharpened with. -/
theorem Signalled.tick {clk : TickClock} (h : Signalled P t x) (hleak : ¬ t.Leaks (.tick clk))
    (hx : t.tick clk = some t') : Signalled P t' x := by
  cases tick_cases hx x with
  | idle _ hp hh hs => exact h.fewer hh hp fun b hb => hs ▸ hb
  | committed q k hq hdue hk hp hh hs =>
    have hP : P q.rssi := (h.pending q hq).resolve_left fun hno => hleak ⟨x, q, hq, hdue, hno⟩
    have hrssi : k.rssi = q.rssi := (pack_eq_some_iff.mp hk).2.2.1
    have hbearing {b : Bearing} (hb : t'.stored x = some b) : b.rssi = some q.rssi := by
      rw [hs] at hb
      obtain ⟨s, -, rfl⟩ := Option.map_eq_some_iff.mp hb
      rfl
    refine ⟨fun e he => ?_, fun q' hq' => ?_, fun b v hb hv => ?_, fun e b he hb => ?_⟩
    · obtain rfl := hh e he
      exact Or.inr (hrssi ▸ hP)
    · rw [hp] at hq'
      cases hq'
    · exact Option.some.inj ((hbearing hb).symm.trans hv) ▸ hP
    · obtain rfl := hh e he
      rw [hbearing hb, hrssi]
      rfl

/-- A promoted record keeps its signal. -/
theorem Signalled.nextHop {n : NodeId} {a : Option Mac} (h : Signalled P t x)
    (hx : t.nextHop n = some (a, t')) : Signalled P t' x := by
  have hst := stored_nextHop hx x
  cases nextHop_cases hx with
  | hit k hk =>
    refine h.fewer (fun e he => ?_) rfl fun b hb => hb
    rw [OrderedDict.get?_reinsert] at he
    split_ifs at he with hxn
    · rw [hxn, hk, he]
    · exact he
  | cold r t' _ hr hput =>
    obtain ⟨k, hk, rfl⟩ := putHot_eq_some_iff.mp hput
    by_cases hxn : x = n
    · subst hxn
      have hbearing : t.stored x = some r.bearing := by rw [stored_eq_map, hr, Option.map_some]
      have hrssi : k.rssi = r.rssi.getD noRssi := (pack_eq_some_iff.mp hk).2.2.1
      have hhot {e : Packed} (he : (t.place x k).hot.get? x = some e) : e = k := by
        rcases get?_of_get?_place he with ⟨-, hek⟩ | ⟨hne, -⟩
        · exact hek
        · exact absurd rfl hne
      refine ⟨fun e he => ?_, h.pending, h.stored, fun e b he hb => ?_⟩
      · rw [hhot he, hrssi]
        exact getD_rssi fun v hv => h.stored r.bearing v hbearing hv
      · obtain rfl := Option.some.inj (hbearing.symm.trans hb)
        rw [hhot he, hrssi]
        rfl
    · refine h.fewer (fun e he => ?_) rfl fun b hb => hb
      rcases get?_of_get?_place he with ⟨hxn', -⟩ | ⟨-, hold⟩
      · exact absurd hxn' hxn
      · exact hold
  | miss _ _ => exact h

theorem Signalled.step {op : RouteOp} {o : RouteOut} (h : Signalled P t x)
    (hP : ∀ c now mono, op = .learn c now mono → c.nodeId = x → ∀ r, c.rssi = some r → P r)
    (hwarm : op.isWarm = false) (hleak : ¬ t.Leaks op) (hx : t.step op = some (t', o)) :
    Signalled P t' x := by
  cases step_cases hx with
  | @learn c now mono _ _ hl => exact h.learn (hP c now mono rfl) hleak hl
  | nextHop hl => exact h.nextHop hl
  | tick hl => exact h.tick hleak hl
  | flush mono => exact h.fewer (fun _ he => he) rfl (leaves_flush t mono x).stored
  | expire now nowCold =>
    refine h.fewer (fun e he => ?_) rfl (leaves_expire t now nowCold x).stored
    rw [expire, OrderedDict.get?_filter, Option.filter_eq_some_iff] at he
    exact he.1
  | warm _ => cases hwarm

/-- The database stays attached. -/
theorem isSome_cold_step {op : RouteOp} {o : RouteOut} (h : t.step op = some (t', o)) :
    t'.cold.isSome = t.cold.isSome := by
  cases step_cases h with
  | learn hl => exact isSome_cold_learn hl
  | nextHop hl => exact isSome_cold_nextHop hl
  | tick hl => exact isSome_cold_tick hl
  | flush mono => exact Option.isSome_map
  | expire now nowCold => exact Option.isSome_map
  | warm hl => rw [(warm_rest hl).1]

theorem signalled_fresh {own : Option NodeId} {ttl mono₀ : ℚ} {maxHot : ℕ} :
    Signalled P (fresh own ttl mono₀ maxHot) x where
  hot := fun e he => by cases he
  pending := fun q hq => by cases hq
  stored := fun b v hb => by cases hb
  same := fun e b he => by cases he

/-! ### What a state reports -/

theorem rssi_ofPacked {n : NodeId} {e : Packed} {v : ℤ} (h : (ofPacked n e).rssi = some v) :
    e.rssi ≠ noRssi ∧ e.rssi = v := by
  unfold ofPacked at h
  dsimp only at h
  split_ifs at h with hno
  exact ⟨hno, Option.some.inj h⟩

/-- A hearing makes a number of the unknown signal, and the store reports it. -/
theorem Leaks.stored {op : RouteOp} {o : RouteOut} (hcold : t.cold.isSome) (h : t.Leaks op)
    (hx : t.step op = some (t', o)) : ∃ n b, t'.stored n = some b ∧ b.rssi = some noRssi := by
  obtain ⟨s, hs⟩ := Option.isSome_iff_exists.mp hcold
  cases step_cases hx with
  | @learn c now mono _ _ hl =>
    obtain ⟨hown, old, hold, hno, hstands⟩ := h
    rcases learn_replaces_or_stands hl hown with ⟨hyields, -⟩ | ⟨old', hold', -, rfl⟩
    · exact absurd (hyields old hold) hstands
    · obtain rfl := Option.some.inj (hold.symm.trans hold')
      refine ⟨c.nodeId, (old.heard c now).bearing, ?_, congrArg some hno⟩
      rw [stored_note, if_pos rfl]
      exact congrArg (Option.map _) hs
  | @tick clk _ hl =>
    obtain ⟨n, q, hq, hdue, hno⟩ := h
    cases tick_cases hl n with
    | idle hidle _ _ _ => exact absurd hdue (not_le.mpr (hidle q hq))
    | committed q' k hq' _ _ _ _ hst =>
      obtain rfl := Option.some.inj (hq.symm.trans hq')
      exact ⟨n, ((q.copy n).hearing clk.wall).bearing, by rw [hst, hs]; rfl, congrArg some hno⟩
  | nextHop _ => exact h.elim
  | flush _ => exact h.elim
  | expire _ _ => exact h.elim
  | warm _ => exact h.elim

theorem get_of_stored {n : NodeId} {b : Bearing} (h : t.stored n = some b) :
    ∃ r, t.get n true = some r ∧ r.rssi = b.rssi := by
  rw [stored_eq_map, Option.map_eq_some_iff] at h
  obtain ⟨r, hr, rfl⟩ := h
  exact ⟨r, by rw [get_full, hr, Option.some_or], rfl⟩

/-- Numbers that were heard, the same in both tiers, are reported as such. -/
theorem signalsTrue_of_signalled {past : List RouteOp} (hpast : ∀ op ∈ past, op.InRange)
    (h : ∀ n, Signalled (SignalHeard past n) t n) : t.SignalsTrue past := by
  have hheld {n : NodeId} {e : Packed} {v : ℤ} (he : t.hot.get? n = some e)
      (hv : (ofPacked n e).rssi = some v) : SignalHeard past n v := by
    obtain ⟨hknown, rfl⟩ := rssi_ofPacked hv
    exact ((h n).hot e he).resolve_left hknown
  refine ⟨fun n full r v hr hv => ?_, fun r hr v hv => ?_, fun n hn => ?_⟩
  · rcases get_eq_some hr with hrec | ⟨e, he, rfl⟩
    · exact (h n).stored r.bearing v (by rw [stored_eq_map, hrec, Option.map_some]) hv
    · exact hheld he hv
  · obtain ⟨e, he, rfl⟩ := List.mem_map.mp ((List.mergeSort_perm _ _).subset hr)
    exact hheld (OrderedDict.get?_eq_some_iff.mpr he) hv
  · obtain ⟨e, he⟩ := OrderedDict.mem_keys_iff.mp hn
    have hhot : t.get n false = some (ofPacked n e) := by
      rw [get_held, he, Option.map_some, Option.some_or]
    cases hst : t.stored n with
    | none =>
      have hrec : t.recorded n = none := Option.map_eq_none_iff.mp (stored_eq_map t n ▸ hst)
      have hfull : t.get n true = some (ofPacked n e) := by
        rw [get_full, hrec, he, Option.none_or, Option.map_some]
      rw [hhot, hfull]
    | some b =>
      obtain ⟨r, hr, hrssi⟩ := get_of_stored hst
      have hsame := (h n).same e b he hst
      rw [hhot, hr, Option.map_some, Option.map_some, hrssi]
      congr 1
      unfold ofPacked
      dsimp only
      rw [hsame]
      cases hb : b.rssi with
      | none => rfl
      | some v =>
        obtain ⟨c, now, mono, hmem, -, hv⟩ := (h n).stored b v hst hb
        have hrange := hpast _ hmem v hv
        exact if_neg (by unfold noRssi; dsimp only [Option.getD]; omega)

end RouteTable

open RouteTable

/-- For every run without `warm` over an empty database: in every state of the run each
number reported was heard and both look-ups agree exactly when no operation of the run
leaks an unknown signal. -/
theorem signals_true_iff {own : Option NodeId} {ttl mono₀ : ℚ} {maxHot : ℕ} {ops : List RouteOp}
    {t : RouteTable} {os : List RouteOut}
    (hx : exec RouteTable.step (fresh own ttl mono₀ maxHot) ops = some (t, os))
    (hwarm : ∀ op ∈ ops, op.isWarm = false) (hrange : ∀ op ∈ ops, op.InRange) :
    (∀ pre post u us, ops = pre ++ post →
      exec RouteTable.step (fresh own ttl mono₀ maxHot) pre = some (u, us) → u.SignalsTrue pre) ↔
      EachStep RouteTable.step (fun u op => ¬ u.Leaks op) (fresh own ttl mono₀ maxHot) ops := by
  constructor
  · intro hall pre op post u us hops hpre hleak
    have hattached : u.cold.isSome :=
      exec_invariant (P := fun _ => True) (fun hs _ h => (isSome_cold_step h).trans hs) rfl
        (by simp) hpre
    rw [hops, ← List.singleton_append, ← List.append_assoc] at hx
    obtain ⟨w, os₁, os₂, h₁, -, -⟩ := exec_append_iff.mp hx
    obtain ⟨u', os₃, os₄, h₂, h₃, -⟩ := exec_append_iff.mp h₁
    obtain ⟨rfl, -⟩ := Prod.mk.inj (Option.some.inj (hpre.symm.trans h₂))
    obtain ⟨w', o, os₅, hone, h₄, -⟩ := exec_cons_iff.mp h₃
    obtain ⟨rfl, -⟩ := Prod.mk.inj (Option.some.inj h₄)
    obtain ⟨n, b, hb, hrssi⟩ := hleak.stored hattached hone
    obtain ⟨r, hr, hr'⟩ := get_of_stored hb
    -- the packed code of the unknown signal is outside the range of the radio
    obtain ⟨c, now, mono, hmem, -, hv⟩ :=
      (hall _ post _ _ (by rw [hops]; simp) h₁).get n true r noRssi hr (hr'.trans hrssi)
    have hin : RouteOp.learn c now mono ∈ ops := by
      rw [hops, List.append_cons]
      exact List.mem_append_left _ hmem
    exact absurd (hrange _ hin noRssi hv).1 (by decide)
  · intro hno pre post u us hops hpre
    have hinv : ∀ n, Signalled (SignalHeard pre n) u n := by
      refine exec_prefix (fun past s => ∀ n, Signalled (SignalHeard past n) s n)
        (fun n => signalled_fresh) (fun pre op post s os s' o hops hpre h hone n => ?_) hops hpre
      have hmem : op ∈ ops := by rw [hops]; simp
      refine ((h n).mono fun v hv => hv.mono (List.subset_append_left pre [op])).step
        (fun c now mono hop hc v hv => ?_) (hwarm op hmem) (hno pre op post s os hops hpre) hone
      exact ⟨c, now, mono, by rw [hop]; simp, hc, hv⟩
    exact signalsTrue_of_signalled (fun op hop => hrange op (by rw [hops]; simp [hop])) hinv

/-- Node 1 is heard with signal `rssi`, and a longer copy follows within the guard. -/
def heardTwice (rssi : Option ℤ) : List RouteOp :=
  [.learn ⟨nodeIdOf 1, macOf 1, 1, rssi, none, none, ""⟩ 100 0,
    .learn ⟨nodeIdOf 1, macOf 2, 5, rssi, none, none, ""⟩ 101 1]

theorem signals_true_known : ∃ t os,
    exec RouteTable.step (fresh none defaultTtl 0 10) (heardTwice (some (-50))) = some (t, os) ∧
    t.SignalsTrue (heardTwice (some (-50))) := by
  have hrun : (exec RouteTable.step (fresh none defaultTtl 0 10)
      (heardTwice (some (-50)))).isSome := by decide +kernel
  obtain ⟨⟨t, os⟩, hx⟩ := Option.isSome_iff_exists.mp hrun
  have hrange : ∀ op ∈ heardTwice (some (-50)), op.InRange := by
    intro op hop
    rcases List.mem_pair.mp hop with rfl | rfl <;>
    · intro v hv
      obtain rfl := Option.some.inj hv
      decide
  refine ⟨t, os, hx, (signals_true_iff hx (by decide) hrange).mpr ?_ _ [] t os
    (List.append_nil _).symm hx⟩
  obtain ⟨u, o, os', hone, hrest, -⟩ := exec_cons_iff.mp hx
  obtain ⟨w, o', os'', htwo, -, -⟩ := exec_cons_iff.mp hrest
  have hknown : ((fresh none defaultTtl 0 10).step
      (.learn ⟨nodeIdOf 1, macOf 1, 1, some (-50), none, none, ""⟩ 100 0)).map
      (fun r => decide (∀ e ∈ r.1.hot.entries, e.2.rssi ≠ noRssi)) = some true := by
    decide +kernel
  have hu : ∀ e ∈ u.hot.entries, e.2.rssi ≠ noRssi := by
    obtain ⟨r, hr, hdec⟩ := Option.map_eq_some_iff.mp hknown
    obtain rfl := Option.some.inj (hr.symm.trans hone)
    exact of_decide_eq_true hdec
  refine (eachStep_cons_iff hone).mpr ⟨?_, (eachStep_cons_iff htwo).mpr ⟨?_, eachStep_nil _ _⟩⟩
  · rintro ⟨-, old, hold, -⟩
    cases hold
  · rintro ⟨-, old, hold, hno, -⟩
    exact hu _ (OrderedDict.get?_eq_some_iff.mp hold) hno

/-- Heard twice without a signal: the full record reports -128, which was never heard and
which the hot entry does not report. -/
theorem unknown_signal_reported : ∃ t os,
    exec RouteTable.step (fresh none defaultTtl 0 10) (heardTwice none) = some (t, os) ∧
    (∀ op ∈ heardTwice none, op.isWarm = false ∧ op.InRange) ∧
    (t.get (nodeIdOf 1) true).map Route.rssi = some (some (-128)) ∧
    (t.get (nodeIdOf 1) false).map Route.rssi = some none ∧
    ¬ t.SignalsTrue (heardTwice none) := by
  have hrun : (exec RouteTable.step (fresh none defaultTtl 0 10) (heardTwice none)).map (fun r =>
      decide ((r.1.get (nodeIdOf 1) true).map Route.rssi = some (some (-128)) ∧
        (r.1.get (nodeIdOf 1) false).map Route.rssi = some none)) = some true := by
    decide +kernel
  obtain ⟨⟨t, os⟩, hx, hdec⟩ := Option.map_eq_some_iff.mp hrun
  obtain ⟨hfull, hheld⟩ := of_decide_eq_true hdec
  refine ⟨t, os, hx, fun op hop => ?_, hfull, hheld, fun h => ?_⟩
  · rcases List.mem_pair.mp hop with rfl | rfl <;>
    · exact ⟨rfl, fun v hv => by cases hv⟩
  · obtain ⟨r, hr, hrssi⟩ := Option.map_eq_some_iff.mp hfull
    obtain ⟨c, now, mono, hmem, -, hv⟩ := h.get (nodeIdOf 1) true r (-128) hr hrssi
    rcases List.mem_pair.mp hmem with heq | heq <;>
    · obtain ⟨rfl, -, -⟩ := RouteOp.learn.inj heq
      cases hv

end Beachedmesh
