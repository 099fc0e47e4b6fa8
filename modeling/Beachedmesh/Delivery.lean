import Beachedmesh.Network

/-!
# Following next hops

A next hop belongs to a node, because only nodes transmit; that node has a route of its own
or is the destination; and it is nearer. Floods and hops are bounded in what was sent, so
the hops end, and only the destination has no next one.
-/
namespace Beachedmesh
open Machine

namespace Net

variable {ι : Type} {c : Crypto} {mac : ι → Mac} {x : ι} {dest : NodeId} {hopLimit : ℤ}
  {net : Net ι} {a b : ι}

/-- The destination has no next hop. -/
theorem Inv.no_hop (h : net.Inv c mac x dest hopLimit) :
    (net.nodes x).routes.heldHop dest = none := by
  rw [RouteTable.heldHop, h.blank.hot, h.blank.stored]
  rfl

theorem Inv.ne_of_hop (h : net.Inv c mac x dest hopLimit) {m : Mac}
    (hm : (net.nodes b).routes.heldHop dest = some m) : b ≠ x := by
  rintro rfl
  cases hm.symm.trans h.no_hop

/-- A next hop is a node. -/
theorem Inv.exists_hop (h : net.Inv c mac x dest hopLimit)
    (hsettled : ∀ a, (net.nodes a).routes.pending.get? dest = none) {m : Mac}
    (hm : (net.nodes b).routes.heldHop dest = some m) : ∃ a, net.NextHop mac dest b a := by
  obtain ⟨f, k, -, msg, -, -, hsender, -⟩ := (h.hears b (h.ne_of_hop hm)).routed (hsettled b) hm
  exact ⟨msg.sender, hm.trans (congrArg some hsender.symm)⟩

theorem Routed.hop {f k : ℕ} (h : net.Routed mac dest hopLimit a f k) :
    ∃ m, (net.nodes a).routes.heldHop dest = some m := by
  obtain ⟨r, -, hr, -⟩ := h
  rw [RouteTable.heldHop, hr]
  exact ⟨r.nextHop, rfl⟩

/-- No flood was sent with a larger number. -/
def lastFlood (net : Net ι) : ℕ := (net.air.map Transmission.flood).foldr max 0

theorem Routed.le_lastFlood {f k : ℕ} (h : net.Routed mac dest hopLimit a f k) :
    f ≤ net.lastFlood := by
  obtain ⟨r, t₁, -, -, -, msg, hmsg, rfl, -⟩ := h
  exact List.le_max_of_le (List.mem_map_of_mem hmsg) le_rfl

/-- How far off a node is: the floods it has missed, then its hops. -/
theorem Nearer.measure {f k : ℕ} (hb : net.Routed mac dest hopLimit b f k)
    (h : net.Nearer mac dest hopLimit b a) : ∃ f' k', net.Routed mac dest hopLimit a f' k' ∧
      toLex (net.lastFlood - f', k') < toLex (net.lastFlood - f, k) := by
  obtain ⟨f₀, k₀, f', k', hb', ha, hlt⟩ := h
  obtain ⟨rfl, rfl⟩ := hb.unique hb'
  refine ⟨f', k', ha, Prod.Lex.toLex_lt_toLex.mpr ?_⟩
  have hle := ha.le_lastFlood
  dsimp only
  omega

/-- One hop on the way: to the destination, or to a node with a nearer route. -/
def Hop (net : Net ι) (mac : ι → Mac) (x : ι) (dest : NodeId) (hopLimit : ℤ) (b a : ι) : Prop :=
  net.NextHop mac dest b a ∧ (a = x ∨ net.Nearer mac dest hopLimit b a)

/-- From a node with a route the next hops lead to the destination, ever nearer. -/
theorem Inv.exists_path (h : net.Inv c mac x dest hopLimit) (hmac : Function.Injective mac)
    (hsettled : ∀ a, (net.nodes a).routes.pending.get? dest = none) {m : Mac}
    (hm : (net.nodes b).routes.heldHop dest = some m) :
    ∃ l, List.IsChain (net.Hop mac x dest hopLimit) (b :: l) ∧ (b :: l).getLast? = some x ∧
      (b :: l).Nodup ∧ ∀ a ∈ l, a = x ∨ net.Nearer mac dest hopLimit b a := by
  obtain ⟨f, k, hrouted, -⟩ := (h.hears b (h.ne_of_hop hm)).routed (hsettled b) hm
  generalize hq : toLex (net.lastFlood - f, k) = q
  induction q using WellFoundedLT.induction generalizing b f k m with
  | _ q ih =>
    subst hq
    obtain ⟨a, hhop⟩ := h.exists_hop hsettled hm
    have hb := h.ne_of_hop hm
    by_cases ha : a = x
    · subst ha
      have hlast : net.Hop mac a dest hopLimit b a := ⟨hhop, Or.inl rfl⟩
      exact ⟨[a], List.isChain_pair.mpr hlast, rfl, by simpa using hb, by simp⟩
    · have hnear := h.nearer hmac hsettled hhop ha
      obtain ⟨f', k', hrouted', hlt⟩ := hnear.measure hrouted
      obtain ⟨m', hm'⟩ := hrouted'.hop
      obtain ⟨l, hchain, hlast, hnodup, hnearer⟩ := ih _ hlt hm' f' k' hrouted' rfl
      have hall (d : ι) (hd : d ∈ a :: l) : d = x ∨ net.Nearer mac dest hopLimit b d := by
        rcases List.mem_cons.mp hd with rfl | hd
        · exact Or.inr hnear
        · exact (hnearer d hd).imp_right hnear.trans
      have hfirst : net.Hop mac x dest hopLimit b a := ⟨hhop, Or.inr hnear⟩
      refine ⟨a :: l, List.isChain_cons_cons.mpr ⟨hfirst, hchain⟩, ?_, ?_, hall⟩
      · rw [List.getLast?_cons_cons, hlast]
      · refine List.nodup_cons.mpr ⟨fun hmem => ?_, hnodup⟩
        rcases hall b hmem with rfl | hself
        · exact hb rfl
        · exact Nearer.irrefl b hself

end Net

/-- Under the assumptions of loop freedom: from every node that holds a route to the
destination, in memory or on disk, the next hops lead to the destination, each of them the
destination or a node with a nearer route than the one before, and visit no node twice. -/
theorem next_hops_reach_destination {ι : Type} [DecidableEq ι] (c : Crypto) {mac : ι → Mac}
    (hmac : Function.Injective mac) {x : ι} {dest : NodeId} {hopLimit : ℤ} {net₀ net : Net ι}
    (h₀ : net₀.Fresh c x dest hopLimit) {ops : List (Net.Op ι)} {us : List Unit}
    (hx : exec (Net.step c mac x dest) net₀ ops = some (net, us))
    (hsettled : ∀ a, (net.nodes a).routes.pending.get? dest = none) {b : ι} {m : Mac}
    (hm : (net.nodes b).routes.heldHop dest = some m) :
    ∃ l, List.IsChain (net.Hop mac x dest hopLimit) (b :: l) ∧ (b :: l).getLast? = some x ∧
      (b :: l).Nodup := by
  have hinv : net.Inv c mac x dest hopLimit :=
    exec_invariant (P := fun _ => True) (fun hs _ hstep => Net.Inv.step hs hstep) h₀.inv
      (by simp) hx
  obtain ⟨l, hchain, hlast, hnodup, -⟩ := hinv.exists_path hmac hsettled hm
  exact ⟨l, hchain, hlast, hnodup⟩

/-- The third node of the line reaches the first one over the second. -/
theorem next_hops_reach_destination_line : ∃ net us l,
    exec (Net.step lineCrypto lineMac 0 sampleNode) lineNet lineRun = some (net, us) ∧
    List.IsChain (net.Hop lineMac 0 sampleNode defaultHopLimit) (2 :: l) ∧
    (2 :: l).getLast? = some 0 := by
  have hrun : (exec (Net.step lineCrypto lineMac 0 sampleNode) lineNet lineRun).map (fun r =>
      ((r.1.nodes 2).routes.heldHop sampleNode,
        decide (∀ a, (r.1.nodes a).routes.pending.get? sampleNode = none))) =
      some (some (lineMac 1), true) := by
    decide +kernel
  obtain ⟨⟨net, us⟩, hx, hrun⟩ := Option.map_eq_some_iff.mp hrun
  simp only [Prod.mk.injEq, decide_eq_true_eq] at hrun
  obtain ⟨hroute, hsettled⟩ := hrun
  have hmac : Function.Injective lineMac := by
    unfold Function.Injective
    decide +kernel
  obtain ⟨l, hchain, hlast, -⟩ :=
    next_hops_reach_destination lineCrypto hmac fresh_lineNet hx hsettled hroute
  exact ⟨net, us, l, hx, hchain, hlast⟩

end Beachedmesh
