import Beachedmesh.Ledger

/-!
# A relay is given up for others

The flooder counts every later copy, the original one too, and asks nobody who sent it.
Since no node relays a packet twice and it was originated once, the copies counted and
the first one are still relays of as many other nodes as the threshold asks for.
-/
namespace Beachedmesh
open Machine

variable {ι : Type} [DecidableEq ι]

/-- In every gentle run of a mesh that starts with nothing sent or pending: whenever a node
answers `cancelled`, at least as many distinct nodes as its threshold have relayed the
packet, none of them the node itself or the owner of the packet's address. -/
theorem cancelled_after_relays (c : Crypto) (mac : ι → Mac) {mesh₀ mesh : Mesh ι}
    (h₀ : mesh₀.Fresh)
    (hsize : ∀ a, (mesh₀.nodes a).flooder.seen.d.size ≤ (mesh₀.nodes a).flooder.seen.capacity)
    {ops : List (Mesh.Op ι)} {ess : List (List Event)}
    (hx : exec (guarded (Mesh.Gentle mac) (Mesh.step c mac)) mesh₀ ops = some (mesh, ess))
    {i : ℕ} {a : ι} {rssi : Option ℤ} {clk : HandleClock}
    (hgentle : mesh.Gentle mac (.deliver i a rssi clk)) {e : Emission ι}
    (he : mesh.air[i]? = some e) {pkt : Packet} (hpkt : Packet.fromBytes e.data = .ok pkt)
    {f : Flooder}
    (hcancel : (mesh.nodes a).flooder.onReceive pkt rssi clk.receive clk.draw = (.cancelled, f)) :
    ∃ S : Finset ι, (mesh.nodes a).flooder.threshold ≤ S.card ∧ ∀ b ∈ S, b ≠ a ∧
      (mesh.nodes b).identity.nodeId ≠ pkt.src ∧
      ∃ e' ∈ mesh.air, e'.sender = b ∧ e'.cause.isSome ∧ e'.key? = some pkt.key := by
  have h := (h₀.ledger hsize).exec hx
  obtain ⟨hne, hnew, -⟩ := hgentle e he
  have hkey := Emission.key?_eq hpkt
  refine ⟨(mesh.relayers pkt.key).toFinset.erase a, ?_, fun b hb => ?_⟩
  · cases Flooder.onReceive_cases hcancel with
    | cancelled p _ hp hthr =>
      obtain ⟨hheard, -⟩ := h.waiting a pkt.key p hp
      have hcard := h.card_inbox_le he hkey hne hnew
      omega
  · obtain ⟨hba, hmem⟩ := Finset.mem_erase.mp hb
    have hrelay := List.mem_toFinset.mp hmem
    obtain ⟨e', hair, hcause, hk, hsender⟩ := Mesh.mem_relayers.mp hrelay
    exact ⟨hba, fun hid => (h.causal.inbox_of_mem_relayers hrelay).2 hid.symm, e', hair, hsender,
      hcause, hk⟩

theorem cancelled_after_relays_line : ∃ mesh ess e pkt f,
    exec (guarded (Mesh.Gentle lineMac) (Mesh.step lineCrypto lineMac)) (lineMeshAt 1)
      lineShared = some (mesh, ess) ∧
    mesh.air[1]? = some e ∧ Packet.fromBytes e.data = .ok pkt ∧
    (mesh.nodes 2).flooder.onReceive pkt none ⟨101, 101, 101⟩ 0 = (.cancelled, f) ∧
    ∃ S : Finset (Fin 3), 1 ≤ S.card ∧ ∀ b ∈ S, b ≠ 2 ∧
      (mesh.nodes b).identity.nodeId ≠ pkt.src := by
  have hrun : (exec (guarded (Mesh.Gentle lineMac) (Mesh.step lineCrypto lineMac)) (lineMeshAt 1)
      lineShared).bind (fun r => (r.1.air[1]?).bind fun e => (Packet.fromBytes e.data).toOption.map
        fun pkt => ((r.1.nodes 2).flooder.threshold,
          (r.1.nodes 2).flooder.onReceive pkt none ⟨101, 101, 101⟩ 0 |>.1,
          decide (r.1.Gentle lineMac (.deliver 1 2 none (HandleClock.const 101))))) =
        some (1, .cancelled, true) := by
    decide +kernel
  obtain ⟨⟨mesh, ess⟩, hx, hrun⟩ := Option.bind_eq_some_iff.mp hrun
  obtain ⟨e, he, hrun⟩ := Option.bind_eq_some_iff.mp hrun
  obtain ⟨pkt, hpkt, hrun⟩ := Option.map_eq_some_iff.mp hrun
  obtain ⟨hthr, hverdict, hgentle⟩ : _ = 1 ∧ _ = Verdict.cancelled ∧ _ = true := by
    simpa only [Prod.mk.injEq] using hrun
  have hok := Packet.fromBytes_of_toOption hpkt
  have hcancel : (mesh.nodes 2).flooder.onReceive pkt none ⟨101, 101, 101⟩ 0 =
      (.cancelled, ((mesh.nodes 2).flooder.onReceive pkt none ⟨101, 101, 101⟩ 0).2) :=
    Prod.ext hverdict rfl
  obtain ⟨S, hcard, hS⟩ := cancelled_after_relays lineCrypto lineMac
    (fresh_lineMeshAt 1) (fun _ => Nat.zero_le _) hx (of_decide_eq_true hgentle) he hok hcancel
  exact ⟨mesh, ess, e, pkt, _, hx, he, hok, hcancel, S, hthr ▸ hcard,
    fun b hb => ⟨(hS b hb).1, (hS b hb).2.1⟩⟩

end Beachedmesh
