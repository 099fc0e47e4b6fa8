import Beachedmesh.Mesh

/-!
# End-to-end packets and honest hop counts

Whatever the radio does, a copy in the air is the packet that was originated with one
hop spent for each relay on its way. So a packet is relayed no oftener in a row than
its hop limit says, also where no cache suppresses a duplicate: a cache of capacity 0
is among those of the nodes.
-/
namespace Beachedmesh
open Machine

namespace Mesh

variable {ι : Type} {mesh : Mesh ι}

/-- A packet some relays on its way. -/
def after (p : Packet) (d : ℕ) : Packet := { p with hopLimit := p.hopLimit - d }

/-- The `j`-th transmission relays the `i`-th. -/
def Causes (mesh : Mesh ι) (i j : ℕ) : Prop := ∃ e, mesh.air[j]? = some e ∧ e.cause = some i

theorem Causal.exists_descends (h : mesh.Causal) {i : ℕ} {e : Emission ι}
    (he : mesh.air[i]? = some e) : ∃ o d, mesh.Descends o i d := by
  induction i using Nat.strong_induction_on generalizing e with
  | _ i ih =>
    obtain ⟨q, -, hcause⟩ := h.air i e he
    cases hcause with
    | original hnone _ => exact ⟨i, 0, .origin he hnone⟩
    | relay j hj hlt hs =>
      obtain ⟨p, ⟨e', he', -⟩, -⟩ := hs.relayed
      obtain ⟨o, d, hd⟩ := ih j hlt he'
      exact ⟨o, d + 1, .relay he hj hd⟩

/-- The sender of an original owns the address of its packet. -/
theorem Causal.owner (h : mesh.Causal) {o : ℕ} {e : Emission ι} {p : Packet}
    (he : mesh.air[o]? = some e) (hnone : e.cause = none) (hp : Packet.fromBytes e.data = .ok p) :
    (mesh.nodes e.sender).identity.nodeId = p.key.1 := by
  obtain ⟨e', q, he', hq, -, horig⟩ := h.original (.origin he hnone)
  obtain rfl := Option.some.inj (he.symm.trans he')
  obtain rfl := Except.ok.inj (hp.symm.trans hq)
  exact horig.1.symm

/-- Nobody but the sender of an original owns the address of its packet. -/
theorem Causal.foreign (h : mesh.Causal)
    (hids : Function.Injective fun a => (mesh.nodes a).identity.nodeId) {o : ℕ} {e : Emission ι}
    {p : Packet} (he : mesh.air[o]? = some e) (hnone : e.cause = none)
    (hp : Packet.fromBytes e.data = .ok p) {b : ι} (hb : b ≠ e.sender) :
    p.key.1 ≠ (mesh.nodes b).identity.nodeId := by
  rw [← h.owner he hnone hp]
  exact fun hsame => hb (hids hsame).symm

/-- A relay is the packet it relays with one hop spent. -/
theorem Causal.relayed (h : mesh.Causal) {i j : ℕ} (hc : mesh.Causes j i) {p : Packet}
    (hp : mesh.Carries j p) : ∃ q, mesh.Carries i q ∧ p.relayed = some q := by
  obtain ⟨e, he, hj⟩ := hc
  obtain ⟨q, hq, hcause⟩ := h.air i e he
  cases hcause with
  | original hnone _ => cases hj.symm.trans hnone
  | relay j' hj' _ hs =>
    obtain rfl := Option.some.inj (hj.symm.trans hj')
    obtain ⟨p', hp', hr⟩ := hs.relayed
    exact ⟨q, ⟨e, he, hq⟩, hp.unique hp' ▸ hr⟩

/-- The packet of a transmission is the original one, a hop less for each relay. -/
theorem Causal.carries (h : mesh.Causal) {o i d : ℕ} (hd : mesh.Descends o i d) :
    ∃ p, mesh.Carries o p ∧ mesh.Carries i (after p d) ∧ (d : ℤ) ≤ p.hopLimit := by
  induction hd with
  | @origin e he _ =>
    obtain ⟨q, hq, -⟩ := h.air o e he
    have hsame : after q 0 = q := by simp [after]
    have hcarries : mesh.Carries o q := ⟨e, he, hq⟩
    obtain ⟨-, hb⟩ := Packet.fromBytes_eq_ok_iff.mp hq
    have hfit := (Packet.toBytes_isSome_iff q).mp (Option.isSome_of_eq_some hb)
    exact ⟨q, hcarries, hsame.symm ▸ hcarries, hfit.2.2.2.1⟩
  | @relay i j d e he hj _ ih =>
    obtain ⟨p, ho, hp, hle⟩ := ih
    obtain ⟨q, hq, hr⟩ := h.relayed ⟨e, he, hj⟩ hp
    obtain ⟨hpos, rfl⟩ := Packet.relayed_eq_some_iff.mp hr
    have hsame : after p (d + 1) = { after p d with hopLimit := (after p d).hopLimit - 1 } := by
      simp only [after, Nat.cast_add, Nat.cast_one, sub_sub]
    simp only [after] at hpos
    exact ⟨p, ho, hsame.symm ▸ hq, by push_cast; omega⟩

/-- A chain of relays that starts some way from the origination ends within the limit. -/
theorem Causal.length_le (h : mesh.Causal) {o i d : ℕ} {l : List ℕ} {p : Packet}
    (hd : mesh.Descends o i d) (hp : mesh.Carries o p) (hl : List.IsChain mesh.Causes (i :: l)) :
    (d : ℤ) + l.length ≤ p.hopLimit := by
  induction l generalizing i d with
  | nil =>
    obtain ⟨p', hp', -, hle⟩ := h.carries hd
    rw [hp.unique hp']
    simpa using hle
  | cons j l ih =>
    obtain ⟨⟨e, he, hcause⟩, hrest⟩ := List.isChain_cons_cons.mp hl
    have hle := ih (.relay he hcause hd) hrest
    rw [List.length_cons]
    push_cast at hle ⊢
    omega

/-- Under one hop limit the receiver's subtraction counts the relays. -/
theorem Causal.hops_eq (h : mesh.Causal) {H : ℤ} (hH : ∀ a, (mesh.nodes a).hopLimit = H)
    {o i d : ℕ} (hd : mesh.Descends o i d) {q : Packet} (hq : mesh.Carries i q)
    (htype : q.type = typeAnnounce) {n : Node} (hn : n.hopLimit = H) (m : FrameMeta)
    (info : Option AnnounceInfo) : (n.copyOf q m info).hops = d := by
  obtain ⟨p, hp, hq', hle⟩ := h.carries hd
  obtain rfl := hq.unique hq'
  obtain ⟨e, p', he, hp', -, -, -, hann⟩ := h.original hd
  obtain rfl := hp.unique ⟨e, he, hp'⟩
  have hlimit : p.hopLimit = H := (hann htype).trans (hH e.sender)
  simp only [Node.copyOf, after, hn, hlimit]
  omega

end Mesh

variable {ι : Type} [DecidableEq ι]

/-- In every run of a mesh in which nothing was sent at the start: every transmission goes
back to an origination; over `d` relays it carries the packet of the origination with the
hop limit less `d`, which is not negative; no chain of relays is longer than the hop limit
and one; and where every node has the hop limit `H`, an announce over `d` relays is
learned with `d` hops. -/
theorem copies_end_to_end (c : Crypto) (mac : ι → Mac) {mesh₀ mesh : Mesh ι} (h₀ : mesh₀.Fresh)
    {ops : List (Mesh.Op ι)} {ess : List (List Event)}
    (hx : exec (Mesh.step c mac) mesh₀ ops = some (mesh, ess)) :
    (∀ i e, mesh.air[i]? = some e → ∃ o d, mesh.Descends o i d) ∧
    (∀ o i d, mesh.Descends o i d → ∃ p, mesh.Carries o p ∧ p.hopLimit ≤ maxHopLimit ∧
      (d : ℤ) ≤ p.hopLimit ∧ mesh.Carries i { p with hopLimit := p.hopLimit - d }) ∧
    (∀ o p l, mesh.Carries o p → (∃ e, mesh.air[o]? = some e ∧ e.cause = none) →
      List.IsChain mesh.Causes (o :: l) → ((o :: l).length : ℤ) ≤ p.hopLimit + 1) ∧
    ∀ H, (∀ a, (mesh₀.nodes a).hopLimit = H) → ∀ o i d q, mesh.Descends o i d →
      mesh.Carries i q → q.type = typeAnnounce →
        ∀ a m info, ((mesh.nodes a).copyOf q m info).hops = d := by
  have h := h₀.causal.exec hx
  refine ⟨fun i e he => h.exists_descends he, fun o i d hd => ?_, ?_, ?_⟩
  · obtain ⟨p, hp, hq, hle⟩ := h.carries hd
    have hmax : p.hopLimit ≤ maxHopLimit := by
      obtain ⟨e, -, hpkt⟩ := hp
      obtain ⟨-, hb⟩ := Packet.fromBytes_eq_ok_iff.mp hpkt
      exact ((Packet.toBytes_isSome_iff p).mp (Option.isSome_of_eq_some hb)).2.2.2.2
    exact ⟨p, hp, hmax, hle, hq⟩
  · rintro o p l hp ⟨e, he, hnone⟩ hl
    have hle := h.length_le (.origin he hnone) hp hl
    rw [List.length_cons]
    push_cast at hle ⊢
    omega
  · intro H hH o i d q hd hq htype a m info
    have hlimit (a : ι) : (mesh.nodes a).hopLimit = H :=
      ((Mesh.extends_exec hx).config a).hopLimit_eq.trans (hH a)
    exact h.hops_eq hlimit hd hq htype (hlimit a) m info

/-- Three nodes in a line: the first one announces, the second one relays. -/
def lineMesh : Mesh (Fin 3) := ⟨lineNode, [], [], fun _ _ => none⟩

theorem fresh_lineMesh : lineMesh.Fresh := ⟨fun _ => rfl, rfl, rfl, fun _ => rfl⟩

def lineRelay : List (Mesh.Op (Fin 3)) :=
  [.act 0 (.announce ⟨⟨sampleRandom, length_sampleRandom⟩, packetIdOf 1, 100, 100⟩ true),
    .deliver 0 1 (some (-60)) (HandleClock.const 100), .act 1 (.relay 101 1),
    .deliver 1 2 (some (-60)) (HandleClock.const 101)]

theorem copies_end_to_end_line : ∃ mesh ess,
    exec (Mesh.step lineCrypto lineMac) lineMesh lineRelay = some (mesh, ess) ∧
    mesh.air.map Emission.cause = [none, some 0] ∧
    ∃ o d p, mesh.Descends o 1 d ∧ mesh.Carries o p ∧ (d : ℤ) ≤ p.hopLimit ∧
      mesh.Carries 1 { p with hopLimit := p.hopLimit - d } := by
  have hrun : (exec (Mesh.step lineCrypto lineMac) lineMesh lineRelay).map (fun r =>
      r.1.air.map Emission.cause) = some [none, some 0] := by
    decide +kernel
  obtain ⟨⟨mesh, ess⟩, hx, hcauses⟩ := Option.map_eq_some_iff.mp hrun
  obtain ⟨hdescends, hcarries, -, -⟩ := copies_end_to_end lineCrypto lineMac fresh_lineMesh hx
  have hone : ∃ e, mesh.air[1]? = some e := by
    cases hair : mesh.air[1]? with
    | some e => exact ⟨e, rfl⟩
    | none =>
      have hcause := congrArg (·[1]?) hcauses
      simp [List.getElem?_map, hair] at hcause
  obtain ⟨e, he⟩ := hone
  obtain ⟨o, d, hd⟩ := hdescends 1 e he
  obtain ⟨p, hp, -, hle, hq⟩ := hcarries o 1 d hd
  exact ⟨mesh, ess, hx, hcauses, o, d, p, hd, hp, hle, hq⟩

end Beachedmesh
