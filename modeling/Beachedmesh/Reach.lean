import Beachedmesh.Neighbourhood
import Mathlib.Combinatorics.SimpleGraph.Metric

/-!
# How far a flood reaches

A node relays the first copy it hears with the hops that this copy has left. Where a
longer way is the faster one, the first copy may have no hop left, and the nodes behind
are missed although a shorter way leads to them. Nothing else makes a flood stop early:
the nodes reached are told by the first copies.
-/
namespace Beachedmesh
open Machine

namespace Mesh

variable {ι : Type} {mac : ι → Mac} {mesh : Mesh ι} {G : SimpleGraph ι}

/-- Only neighbours of its sender hear a transmission. -/
def Adjacent (G : SimpleGraph ι) (mesh : Mesh ι) : Op ι → Prop
  | .deliver i a _ _ => ∀ e ∈ mesh.air[i]?, G.Adj e.sender a
  | _ => True

instance [DecidableRel G.Adj] (mesh : Mesh ι) (op : Op ι) : Decidable (mesh.Adjacent G op) :=
  match op with
  | .deliver i a _ _ => inferInstanceAs (Decidable (∀ e ∈ mesh.air[i]?, G.Adj e.sender a))
  | .originate _ _ | .act _ _ => isTrue trivial

/-- The flood of the packet with the key `k` is over. -/
structure Ended (G : SimpleGraph ι) (mesh : Mesh ι) (k : Key) : Prop where
  heard : ∀ i ∈ List.range mesh.air.length, ∀ e ∈ mesh.air[i]?, e.key? = some k →
    ∀ b, G.Adj e.sender b → (i, b) ∈ mesh.got
  pending : ∀ b, (mesh.nodes b).flooder.pending.get? k = none

/-- How often a transmission was relayed before is one number. -/
theorem Descends.unique {o i d d' : ℕ} (h : mesh.Descends o i d) (h' : mesh.Descends o i d') :
    d = d' := by
  induction h generalizing d' with
  | origin he hnone =>
    cases h' with
    | origin _ _ => rfl
    | relay he' hcause _ =>
      obtain rfl := Option.some.inj (he.symm.trans he')
      cases hnone.symm.trans hcause
  | relay he hcause _ ih =>
    cases h' with
    | origin he' hnone =>
      obtain rfl := Option.some.inj (he.symm.trans he')
      cases hnone.symm.trans hcause
    | relay he' hcause' hd' =>
      obtain rfl := Option.some.inj (he.symm.trans he')
      obtain rfl := Option.some.inj (hcause.symm.trans hcause')
      rw [ih hd']

/-- A relay goes back to what its sender took up. -/
theorem took_of_mem_emissions {a : ι} {op : Node.Op} {bs : List Bytes} {e : Emission ι} {j : ℕ}
    (he : e ∈ mesh.emissions a op bs) (hcause : e.cause = some j) (hk : e.key? = some k) :
    mesh.took e.sender k = some j := by
  obtain ⟨b, -, rfl⟩ := List.mem_map.mp he
  cases op with
  | relay now sends =>
    simp only [Emission.key?, causeOf] at hk hcause
    cases hq : Packet.fromBytes b with
    | ok q =>
      rw [hq] at hk hcause
      rwa [← Option.some.inj hk]
    | error err => simp [hq] at hk
  | _ => cases hcause

section Run

variable [DecidableEq ι]

instance [Fintype ι] [DecidableRel G.Adj] (mesh : Mesh ι) (k : Key) : Decidable (mesh.Ended G k) :=
  decidable_of_iff ((∀ i ∈ List.range mesh.air.length, ∀ e ∈ mesh.air[i]?, e.key? = some k →
      ∀ b, G.Adj e.sender b → (i, b) ∈ mesh.got) ∧
    ∀ b, (mesh.nodes b).flooder.pending.get? k = none)
    ⟨fun ⟨hheard, hpending⟩ => ⟨hheard, hpending⟩, fun h => ⟨h.heard, h.pending⟩⟩

/-- The diligent steps of a mesh over the graph `G`. -/
def Along (G : SimpleGraph ι) (mac : ι → Mac) (mesh : Mesh ι) (op : Op ι) : Prop :=
  mesh.Gentle mac op ∧ mesh.Sends op ∧ mesh.Adjacent G op

instance [DecidableRel G.Adj] (mesh : Mesh ι) (op : Op ι) : Decidable (mesh.Along G mac op) :=
  inferInstanceAs (Decidable (_ ∧ _ ∧ _))

/-- The first copy of the packet that `u` has heard had been relayed `d` times. -/
def FirstAfter (mesh : Mesh ι) (o : ℕ) (k : Key) (u : ι) (d : ℕ) : Prop :=
  ∃ i, mesh.took u k = some i ∧ i ∈ mesh.inbox u k ∧ mesh.Descends o i d

variable {k : Key} {p : Packet} {o : ℕ} {e : Emission ι}

/-- What was sent during the flood has reached the neighbours. -/
theorem Ended.received (h : mesh.Ended G k) {u v : ι} (hadj : G.Adj u v) {i : ℕ}
    (he : mesh.air[i]? = some e) (hk : e.key? = some k) (hu : e.sender = u) :
    (mesh.inbox v k).Nonempty := by
  have hlt := (List.getElem?_eq_some_iff.mp he).1
  exact ⟨i, mem_inbox.mpr ⟨⟨e, he, hk⟩, h.heard i (List.mem_range.mpr hlt) e he hk v (hu ▸ hadj)⟩⟩

/-- Every copy of a packet goes back to the one origination of it. -/
theorem Ledger.descends_original (h : mesh.Ledger) (he : mesh.air[o]? = some e)
    (horiginal : e.cause = none) (hp : Packet.fromBytes e.data = .ok p) {i : ℕ} {e' : Emission ι}
    (he' : mesh.air[i]? = some e') (hk : e'.key? = some p.key) :
    ∃ d : ℕ, mesh.Descends o i d ∧ mesh.Carries i (after p d) ∧ (d : ℤ) ≤ p.hopLimit := by
  obtain ⟨o', d, hd⟩ := h.causal.exists_descends he'
  obtain ⟨p', hp', ⟨e'', he'', hdata⟩, hle⟩ := h.causal.carries hd
  obtain ⟨e₀, p₀, he₀, hp₀, hnone₀, -⟩ := h.causal.original hd
  obtain rfl := hp'.unique ⟨e₀, he₀, hp₀⟩
  obtain rfl := Option.some.inj (he'.symm.trans he'')
  have hkey₀ : e₀.key? = some p.key :=
    (Emission.key?_eq hp₀).trans ((Emission.key?_eq hdata).symm.trans hk)
  obtain rfl := h.original_unique he₀ he hkey₀ (Emission.key?_eq hp) hnone₀ horiginal
  obtain rfl := hp'.unique ⟨e, he, hp⟩
  exact ⟨d, hd, ⟨e', he', hdata⟩, hle⟩

/-- A node that has heard a packet of others relays it, unless its first copy is spent. -/
theorem Fates.relayed_of_ended [Fintype ι] (h : mesh.Fates) (he : mesh.air[o]? = some e)
    (horiginal : e.cause = none) (hp : Packet.fromBytes e.data = .ok p) {H : ℕ}
    (hH : p.hopLimit = H) (hended : mesh.Ended G p.key) {u : ι}
    (hthr : Fintype.card ι < (mesh.nodes u).flooder.threshold)
    (hforeign : p.key.1 ≠ (mesh.nodes u).identity.nodeId) (hin : (mesh.inbox u p.key).Nonempty)
    (hleft : ¬ mesh.FirstAfter o p.key u H) : u ∈ mesh.relayers p.key := by
  have hcard := (h.ledger.nodup p.key).length_le_card
  obtain hu | ⟨i, q, htook, hi, hq, hspent⟩ :=
    h.relayed_or_spent hforeign hin (hended.pending u) (by omega)
  · exact hu
  · obtain ⟨⟨e', he', hk'⟩, -⟩ := mem_inbox.mp hi
    obtain ⟨d, hd, hq', hle⟩ := h.ledger.descends_original he horiginal hp he' hk'
    obtain rfl := hq.unique hq'
    have hall : d = H := by
      by_contra hne
      have hpos : 1 ≤ (after p d).hopLimit := by
        simp only [after]
        omega
      cases hspent.symm.trans (Packet.relayed_eq_some_iff.mpr ⟨hpos, rfl⟩)
    exact absurd ⟨i, htook, hi, hall ▸ hd⟩ hleft

/-- What diligent runs over the graph `G` keep. -/
structure Surveyed (G : SimpleGraph ι) (mesh : Mesh ι) : Prop where
  fates : mesh.Fates
  adj : ∀ (i : ℕ) (a : ι) (e : Emission ι), (i, a) ∈ mesh.got → mesh.air[i]? = some e →
    G.Adj e.sender a
  took : ∀ (i : ℕ) (e : Emission ι) (j : ℕ) (k : Key), mesh.air[i]? = some e →
    e.cause = some j → e.key? = some k → mesh.took e.sender k = some j

theorem Surveyed.deliver (h : mesh.Surveyed G) {i : ℕ} {a : ι} {rssi : Option ℤ}
    {clk : HandleClock} {n : Node} (he : mesh.air[i]? = some e)
    (hret : (mesh.nodes a).Retains (.frame e.data ⟨mac e.sender, rssi⟩ clk))
    (hadj : G.Adj e.sender a) (hfates : (mesh.delivered i e a rssi clk n).Fates) :
    (mesh.delivered i e a rssi clk n).Surveyed G := by
  have hledger := h.fates.ledger
  obtain ⟨pkt, hpkt, -⟩ := hledger.causal.air i e he
  refine ⟨hfates, fun j b e' hgot he' => ?_, fun l e' j k he' hcause hk => ?_⟩
  · rw [got_delivered, List.mem_append, List.mem_singleton, Prod.mk.injEq] at hgot
    rcases hgot with hgot | ⟨rfl, rfl⟩
    · exact h.adj j b e' hgot he'
    · obtain rfl := Option.some.inj (he.symm.trans he')
      exact hadj
  · have htook := h.took l e' j k he' hcause hk
    by_cases hsk : e'.sender = a ∧ k = pkt.key
    · -- the sender of a relay has the key in its cache
      obtain ⟨rfl, rfl⟩ := hsk
      have hmem : e'.sender ∈ mesh.relayers pkt.key :=
        mem_relayers.mpr ⟨e', List.mem_of_getElem? he', by simp [hcause], hk, rfl⟩
      obtain ⟨hin, hforeign⟩ := hledger.causal.inbox_of_mem_relayers hmem
      have hseen := hledger.known e'.sender pkt.key hforeign hin
      rw [took_delivered_self, hledger.takesUp_iff hpkt hret hforeign, if_pos hseen]
      simpa using htook
    · rw [took_delivered_elsewhere hpkt (not_and_or.mp hsk), htook]

/-- What is sent reaches nobody at once, and its causes are told. -/
theorem Surveyed.append (h : mesh.Surveyed G) {mesh' : Mesh ι} {new : List (Emission ι)}
    (hair : mesh'.air = mesh.air ++ new) (hgot : mesh'.got = mesh.got)
    (htook : mesh'.took = mesh.took) (hnew : ∀ e ∈ new, ∀ j k, e.cause = some j →
      e.key? = some k → mesh.took e.sender k = some j) (hfates : mesh'.Fates) :
    mesh'.Surveyed G := by
  refine ⟨hfates, fun i a e hi he => ?_, fun i e j k he hcause hk => ?_⟩
  · rw [hgot] at hi
    rw [hair, List.getElem?_append_left (h.fates.ledger.lt hi)] at he
    exact h.adj i a e hi he
  · rw [htook]
    rcases List.mem_append.mp (hair ▸ List.mem_of_getElem? he) with hold | hmem
    · obtain ⟨i', he'⟩ := List.mem_iff_getElem?.mp hold
      exact h.took i' e j k he' hcause hk
    · exact hnew e hmem j k hcause hk

theorem Surveyed.step [DecidableRel G.Adj] {c : Crypto} {mesh' : Mesh ι} (h : mesh.Surveyed G)
    {op : Op ι} {es : List Event} (hguard : mesh.Along G mac op)
    (hx : mesh.step c mac op = some (mesh', es)) : mesh'.Surveyed G := by
  obtain ⟨hgentle, hsends, hadj⟩ := hguard
  have hfates := h.fates.step hgentle hsends hx
  cases step_cases hx with
  | deliver e n es he _ => exact h.deliver he (hgentle e he).2.2 (hadj e he) hfates
  | originate b _ _ =>
    refine h.append air_originated got_originated took_originated (fun e he j k hcause _ => ?_)
      hfates
    obtain rfl := List.mem_singleton.mp he
    cases hcause
  | act n es _ _ =>
    exact h.append air_acted got_acted took_acted
      (fun e he j k hcause hk => took_of_mem_emissions he hcause hk) hfates

theorem Fresh.surveyed (h : mesh.Fresh)
    (hseen : ∀ a, (mesh.nodes a).flooder.seen.d = OrderedDict.empty) : mesh.Surveyed G where
  fates := h.fates hseen
  adj i a e hgot := by simp [h.got] at hgot
  took i e j k he := by simp [h.air] at he

/-- Along a walk whose nodes all have a hop left, every node hears the packet. -/
theorem Fates.received_of_walk [Fintype ι] (h : mesh.Fates) (he : mesh.air[o]? = some e)
    (horiginal : e.cause = none) (hp : Packet.fromBytes e.data = .ok p) {H : ℕ}
    (hH : p.hopLimit = H) (hended : mesh.Ended G p.key)
    (hthr : ∀ u, Fintype.card ι < (mesh.nodes u).flooder.threshold)
    (hforeign : ∀ u, u ≠ e.sender → p.key.1 ≠ (mesh.nodes u).identity.nodeId) {u v : ι}
    (w : G.Walk u v) (hleft : ∀ x ∈ w.support, x ≠ e.sender → ¬ mesh.FirstAfter o p.key x H)
    (hu : u = e.sender ∨ (mesh.inbox u p.key).Nonempty) :
    v = e.sender ∨ (mesh.inbox v p.key).Nonempty := by
  induction w with
  | nil => exact hu
  | @cons u x v hadj w ih =>
    refine ih (fun y hy => hleft y (List.mem_cons_of_mem _ hy)) (Or.inr ?_)
    by_cases hsender : u = e.sender
    · exact hended.received hadj he (Emission.key?_eq hp) hsender.symm
    · have hin := hu.resolve_left hsender
      have hrelay := h.relayed_of_ended he horiginal hp hH hended (hthr u) (hforeign u hsender) hin
        (hleft u (SimpleGraph.Walk.start_mem_support _) hsender)
      obtain ⟨e', hair, -, hk, hs⟩ := mem_relayers.mp hrelay
      obtain ⟨i, he'⟩ := List.mem_iff_getElem?.mp hair
      exact hended.received hadj he' hk hs

/-- Who relayed a packet had a hop left in its first copy. -/
theorem Surveyed.left_of_relayed (h : mesh.Surveyed G) (he : mesh.air[o]? = some e)
    (horiginal : e.cause = none) (hp : Packet.fromBytes e.data = .ok p) {H : ℕ}
    (hH : p.hopLimit = H) {i j : ℕ} {e' : Emission ι} (he' : mesh.air[i]? = some e')
    (hk : e'.key? = some p.key) (hcause : e'.cause = some j) :
    ¬ mesh.FirstAfter o p.key e'.sender H := by
  rintro ⟨j', htook, -, hd'⟩
  obtain rfl := Option.some.inj (htook.symm.trans (h.took i e' j p.key he' hcause hk))
  obtain ⟨d, hd, -, hle⟩ := h.fates.ledger.descends_original he horiginal hp he' hk
  cases hd with
  | origin he'' hnone =>
    obtain rfl := Option.some.inj (he'.symm.trans he'')
    cases hnone.symm.trans hcause
  | relay he'' hcause' hd =>
    obtain rfl := Option.some.inj (he'.symm.trans he'')
    obtain rfl := Option.some.inj (hcause.symm.trans hcause')
    have hsame := hd.unique hd'
    push_cast at hle
    omega

/-- What a node has received came along a walk whose inner nodes had a hop left. -/
theorem Surveyed.exists_walk (h : mesh.Surveyed G) (he : mesh.air[o]? = some e)
    (horiginal : e.cause = none) (hp : Packet.fromBytes e.data = .ok p) {H : ℕ}
    (hH : p.hopLimit = H) {i : ℕ} {v : ι} (hi : i ∈ mesh.inbox v p.key) :
    ∃ w : G.Walk e.sender v, ∀ u ∈ w.support, u ≠ e.sender → u ≠ v →
      ¬ mesh.FirstAfter o p.key u H := by
  induction i using Nat.strong_induction_on generalizing v with
  | _ i ih =>
    obtain ⟨⟨e', he', hk⟩, hgot⟩ := mem_inbox.mp hi
    have hadj := h.adj i v e' hgot he'
    have hledger := h.fates.ledger
    obtain ⟨q, hq, hcaused⟩ := hledger.causal.air i e' he'
    cases hcaused with
    | original hnone _ =>
      obtain rfl := hledger.original_unique he he' (Emission.key?_eq hp) hk horiginal hnone
      obtain rfl := Option.some.inj (he.symm.trans he')
      refine ⟨.cons hadj .nil, fun u hu hus huv => ?_⟩
      simp [hus, huv] at hu
    | relay j hcause hlt hs =>
      obtain ⟨q', ⟨e'', he'', hq'⟩, hr⟩ := hs.relayed
      have hkey : e''.key? = some p.key := by
        rw [Emission.key?_eq hq', ← Packet.relayed_key hr, ← hk, Emission.key?_eq hq]
      obtain ⟨w, hw⟩ := ih j hlt (mem_inbox.mpr ⟨⟨e'', he'', hkey⟩, hs.got⟩)
      refine ⟨w.concat hadj, fun u hu hus huv => ?_⟩
      rw [SimpleGraph.Walk.support_concat, List.mem_append, List.mem_singleton] at hu
      by_cases hue : u = e'.sender
      · exact hue ▸ h.left_of_relayed he horiginal hp hH he' hk hcause
      · exact hw u (hu.resolve_right huv) hus hue

end Run

end Mesh

variable {ι : Type} [DecidableEq ι] [Fintype ι]

/-- In every run over a connected graph from empty caches, with thresholds above the number
of nodes and no failing send: when the flood of a packet that was originated with the hop
limit `H` has ended, exactly those nodes have received it to which a walk leads from the
originator whose inner nodes all had a hop left in their first copy. So a node within `H + 1`
links has received it, unless a node within `H` links has heard it first over `H + 1` links. -/
theorem reached_iff (c : Crypto) (mac : ι → Mac) {G : SimpleGraph ι} [DecidableRel G.Adj]
    (hconnected : G.Connected) {mesh₀ mesh : Mesh ι} (h₀ : mesh₀.Fresh)
    (hseen : ∀ a, (mesh₀.nodes a).flooder.seen.d = OrderedDict.empty)
    (hthr : ∀ a, Fintype.card ι < (mesh₀.nodes a).flooder.threshold)
    (hids : Function.Injective fun a => (mesh₀.nodes a).identity.nodeId)
    {ops : List (Mesh.Op ι)} {ess : List (List Event)}
    (hx : exec (guarded (Mesh.Along G mac) (Mesh.step c mac)) mesh₀ ops = some (mesh, ess))
    {o : ℕ} {e : Emission ι} (he : mesh.air[o]? = some e) (horiginal : e.cause = none)
    {p : Packet} (hp : Packet.fromBytes e.data = .ok p) {H : ℕ} (hH : p.hopLimit = H)
    (hended : mesh.Ended G p.key) {v : ι} (hne : v ≠ e.sender) :
    ((mesh.inbox v p.key).Nonempty ↔ ∃ w : G.Walk e.sender v,
      ∀ u ∈ w.support, u ≠ e.sender → u ≠ v → ¬ mesh.FirstAfter o p.key u H) ∧
    (G.dist e.sender v ≤ H + 1 → (mesh.inbox v p.key).Nonempty ∨
      ∃ u, u ≠ e.sender ∧ G.dist e.sender u ≤ H ∧ mesh.FirstAfter o p.key u H) := by
  have hrun := exec_of_guarded hx
  have h : mesh.Surveyed G :=
    exec_guarded_invariant (fun hs hguard hstep => Mesh.Surveyed.step hs hguard hstep)
      (h₀.surveyed hseen) hx
  have hforeign (u : ι) (hu : u ≠ e.sender) : p.key.1 ≠ (mesh.nodes u).identity.nodeId :=
    h.fates.ledger.causal.foreign ((Mesh.extends_exec hrun).injective hids) he horiginal hp hu
  have hbound (u : ι) : Fintype.card ι < (mesh.nodes u).flooder.threshold :=
    Mesh.thresholds_exec hrun u ▸ hthr u
  have hiff : (mesh.inbox v p.key).Nonempty ↔ ∃ w : G.Walk e.sender v,
      ∀ u ∈ w.support, u ≠ e.sender → u ≠ v → ¬ mesh.FirstAfter o p.key u H := by
    refine ⟨fun ⟨i, hi⟩ => h.exists_walk he horiginal hp hH hi, fun ⟨w, hw⟩ => ?_⟩
    by_contra hmissed
    have hleft (u : ι) (hu : u ∈ w.support) (hus : u ≠ e.sender) :
        ¬ mesh.FirstAfter o p.key u H := by
      by_cases huv : u = v
      · rintro ⟨i, -, hi, -⟩
        exact hmissed (huv ▸ ⟨i, hi⟩)
      · exact hw u hu hus huv
    exact (h.fates.received_of_walk he horiginal hp hH hended hbound hforeign w hleft
      (Or.inl rfl)).elim hne hmissed
  refine ⟨hiff, fun hdist => or_iff_not_imp_left.mpr fun hmissed => ?_⟩
  obtain ⟨w, hw⟩ := hconnected.exists_walk_length_eq_dist e.sender v
  obtain ⟨u, hu, hus, huv, hspent⟩ : ∃ u ∈ w.support, u ≠ e.sender ∧ u ≠ v ∧
      mesh.FirstAfter o p.key u H := by
    by_contra hnone
    exact hmissed (hiff.mpr ⟨w, fun u hu hus huv hspent => hnone ⟨u, hu, hus, huv, hspent⟩⟩)
  have hlt := w.length_takeUntil_lt_length hu huv
  have hle := SimpleGraph.dist_le (w.takeUntil u hu)
  exact ⟨u, hus, by omega, hspent⟩

/-! ### A longer way that is the faster one -/

/-- Node 4 is reached over node 1, and over the nodes 2 and 3; node 5 is behind it. -/
def detourLinks : List (Fin 6 × Fin 6) := [(0, 1), (1, 4), (0, 2), (2, 3), (3, 4), (4, 5)]

def detourGraph : SimpleGraph (Fin 6) := SimpleGraph.fromRel fun a b => (a, b) ∈ detourLinks

instance : DecidableRel detourGraph.Adj := fun a b =>
  inferInstanceAs (Decidable (a ≠ b ∧ ((a, b) ∈ detourLinks ∨ (b, a) ∈ detourLinks)))

def detourMac (a : Fin 6) : Mac := macOf (UInt8.ofNat a.val)

/-- The hop limit is 2, and a relay gives way to 7 others. -/
def detourNode (a : Fin 6) : Node :=
  let n := Node.new "wlan1"
    (if a = 0 then lineIdentity else { sampleIdentity with nodeId := nodeIdOf (UInt8.ofNat a.val) })
    announceInterval (if a = 0 then "x" else "")
    ((some OrderedDict.empty).map fun rows => ColdStore.new rows 0) 2 0 0
  { n with flooder := { n.flooder with threshold := 7 } }

def detourMesh : Mesh (Fin 6) := ⟨detourNode, [], [], fun _ _ => none⟩

/-- Node 1 hears the announce well and waits long; the others hear each other badly. -/
def detourRun : List (Mesh.Op (Fin 6)) :=
  [.act 0 (.announce ⟨⟨sampleRandom, length_sampleRandom⟩, packetIdOf 1, 100, 100⟩ true),
    .deliver 0 1 (some (-40)) (HandleClock.const 100),
    .deliver 0 2 (some (-100)) (HandleClock.const 100),
    .act 2 (.relay (100 + 2 / 100) 1),
    .deliver 1 0 (some (-100)) (HandleClock.const (100 + 2 / 100)),
    .deliver 1 3 (some (-100)) (HandleClock.const (100 + 2 / 100)),
    .act 3 (.relay (100 + 4 / 100) 1),
    .deliver 2 2 (some (-100)) (HandleClock.const (100 + 4 / 100)),
    .deliver 2 4 (some (-100)) (HandleClock.const (100 + 4 / 100)),
    .act 1 (.relay (100 + 25 / 100) 1),
    .deliver 3 0 (some (-40)) (HandleClock.const (100 + 25 / 100)),
    .deliver 3 4 (some (-40)) (HandleClock.const (100 + 25 / 100))]

theorem detourGraph_connected : detourGraph.Connected := by
  have hlink {a b : Fin 6} (h : detourGraph.Adj a b) := h.reachable
  have h02 := hlink (show detourGraph.Adj 0 2 by decide)
  have h03 := h02.trans (hlink (show detourGraph.Adj 2 3 by decide))
  have h04 := h03.trans (hlink (show detourGraph.Adj 3 4 by decide))
  have h05 := h04.trans (hlink (show detourGraph.Adj 4 5 by decide))
  refine (SimpleGraph.connected_iff_exists_forall_reachable _).mpr ⟨0, fun a => ?_⟩
  fin_cases a
  · exact SimpleGraph.Reachable.refl 0
  · exact hlink (show detourGraph.Adj 0 1 by decide)
  · exact h02
  · exact h03
  · exact h04
  · exact h05

/-- Node 5 is behind the nodes 1 and 4. -/
theorem dist_detourGraph_le : detourGraph.dist 0 5 ≤ 2 + 1 := by
  have h01 : detourGraph.Adj 0 1 := by decide
  have h14 : detourGraph.Adj 1 4 := by decide
  have h45 : detourGraph.Adj 4 5 := by decide
  simpa using SimpleGraph.dist_le (.cons h01 (.cons h14 (.cons h45 .nil)))

theorem detourRun_ends : ∃ mesh ess e p,
    exec (guarded (Mesh.Along detourGraph detourMac) (Mesh.step lineCrypto detourMac)) detourMesh
      detourRun = some (mesh, ess) ∧
    mesh.air[0]? = some e ∧ e.cause = none ∧ e.sender = 0 ∧ Packet.fromBytes e.data = .ok p ∧
    p.type = typeAnnounce ∧ p.hopLimit = 2 ∧ mesh.Ended detourGraph p.key ∧
    ¬ (mesh.inbox 5 p.key).Nonempty := by
  have hrun : (exec (guarded (Mesh.Along detourGraph detourMac) (Mesh.step lineCrypto detourMac))
      detourMesh detourRun).bind (fun r => (r.1.air[0]?).bind fun e =>
        (Packet.fromBytes e.data).toOption.map fun p =>
          decide (e.cause = none ∧ e.sender = 0 ∧ p.type = typeAnnounce ∧ p.hopLimit = 2 ∧
            r.1.Ended detourGraph p.key ∧ ¬ (r.1.inbox 5 p.key).Nonempty)) = some true := by
    decide +kernel
  obtain ⟨⟨mesh, ess⟩, hx, hrun⟩ := Option.bind_eq_some_iff.mp hrun
  obtain ⟨e, he, hrun⟩ := Option.bind_eq_some_iff.mp hrun
  obtain ⟨p, hp, hrun⟩ := Option.map_eq_some_iff.mp hrun
  obtain ⟨hnone, hsender, htype, hlimit, hended, hmissed⟩ := of_decide_eq_true hrun
  exact ⟨mesh, ess, e, p, hx, he, hnone, hsender, Packet.fromBytes_of_toOption hp, htype, hlimit,
    hended, hmissed⟩

theorem fresh_detourMesh : detourMesh.Fresh := ⟨fun _ => rfl, rfl, rfl, fun _ => rfl⟩

theorem threshold_detourMesh (a : Fin 6) :
    Fintype.card (Fin 6) < (detourMesh.nodes a).flooder.threshold := by
  rw [Fintype.card_fin]
  exact Nat.lt_succ_self 6

theorem injective_detourMesh :
    Function.Injective fun a => (detourMesh.nodes a).identity.nodeId := by
  unfold Function.Injective
  decide +kernel

/-- Node 5 misses an announce with the hop limit 2, although it is 3 links away: node 4
has heard it first over the nodes 2 and 3. -/
theorem detour_wastes_hops : ∃ mesh ess e p,
    detourGraph.Connected ∧ detourMesh.Fresh ∧
    (∀ a, (detourMesh.nodes a).flooder.seen.d = OrderedDict.empty) ∧
    (∀ a, Fintype.card (Fin 6) < (detourMesh.nodes a).flooder.threshold) ∧
    Function.Injective (fun a => (detourMesh.nodes a).identity.nodeId) ∧
    exec (guarded (Mesh.Along detourGraph detourMac) (Mesh.step lineCrypto detourMac)) detourMesh
      detourRun = some (mesh, ess) ∧
    mesh.air[0]? = some e ∧ e.cause = none ∧ Packet.fromBytes e.data = .ok p ∧
    p.type = typeAnnounce ∧ p.hopLimit = (2 : ℕ) ∧ mesh.Ended detourGraph p.key ∧
    detourGraph.dist e.sender 5 ≤ 2 + 1 ∧ ¬ (mesh.inbox 5 p.key).Nonempty := by
  obtain ⟨mesh, ess, e, p, hx, he, hnone, hsender, hp, htype, hlimit, hended, hmissed⟩ :=
    detourRun_ends
  exact ⟨mesh, ess, e, p, detourGraph_connected, fresh_detourMesh, fun _ => rfl,
    threshold_detourMesh, injective_detourMesh, hx, he, hnone, hp, htype, hlimit, hended,
    hsender ▸ dist_detourGraph_le, hmissed⟩

/-- So a node next to the originator, or next but one, has heard it over three links. -/
theorem reached_iff_detour : ∃ mesh ess e p,
    exec (guarded (Mesh.Along detourGraph detourMac) (Mesh.step lineCrypto detourMac)) detourMesh
      detourRun = some (mesh, ess) ∧
    mesh.air[0]? = some e ∧ Packet.fromBytes e.data = .ok p ∧
    ∃ u, u ≠ e.sender ∧ detourGraph.dist e.sender u ≤ 2 ∧ mesh.FirstAfter 0 p.key u 2 := by
  obtain ⟨mesh, ess, e, p, hx, he, hnone, hsender, hp, -, hlimit, hended, hmissed⟩ :=
    detourRun_ends
  have hne : (5 : Fin 6) ≠ e.sender := by
    rw [hsender]
    decide
  obtain ⟨-, hdetour⟩ := reached_iff lineCrypto detourMac detourGraph_connected fresh_detourMesh
    (fun _ => rfl) threshold_detourMesh injective_detourMesh hx he hnone hp hlimit hended hne
  exact ⟨mesh, ess, e, p, hx, he, hp,
    (hdetour (hsender ▸ dist_detourGraph_le)).resolve_left hmissed⟩

end Beachedmesh
