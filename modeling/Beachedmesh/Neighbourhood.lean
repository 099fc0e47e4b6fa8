import Beachedmesh.Fates
import Beachedmesh.HopCount

/-!
# Transmissions in a neighbourhood

All nodes hear each other, and what was sent has been heard by all before the next timer
fires. Then a relay that waits has counted every relay sent so far, so no more go out than
the threshold says, and none is given up before that.
-/
namespace Beachedmesh
open Machine

namespace Mesh

variable {ι : Type} {c : Crypto} {mac : ι → Mac} {mesh mesh' : Mesh ι}

/-- A packet is originated once. -/
theorem Ledger.original_unique [DecidableEq ι] (h : mesh.Ledger) {i j : ℕ} {e e' : Emission ι}
    {k : Key} (he : mesh.air[i]? = some e) (he' : mesh.air[j]? = some e') (hk : e.key? = some k)
    (hk' : e'.key? = some k) (hnone : e.cause = none) (hnone' : e'.cause = none) : i = j := by
  have hone : (mesh.air.positions fun e => decide (e.cause = none ∧ e.key? = some k)).card ≤ 1 := by
    rw [List.card_positions]
    exact h.originals_le k
  refine Finset.card_le_one.mp hone i ?_ j ?_
  · exact List.mem_positions.mpr ⟨e, he, by simp [hnone, hk]⟩
  · exact List.mem_positions.mpr ⟨e', he', by simp [hnone', hk']⟩

/-- Every packet in the air has an original, from the owner of its address. -/
theorem Causal.exists_original (h : mesh.Causal) {i : ℕ} {e : Emission ι} {k : Key}
    (he : mesh.air[i]? = some e) (hk : e.key? = some k) :
    ∃ (o : ℕ) (e' : Emission ι), mesh.air[o]? = some e' ∧ e'.cause = none ∧ e'.key? = some k ∧
      (mesh.nodes e'.sender).identity.nodeId = k.1 := by
  obtain ⟨o, d, hd⟩ := h.exists_descends he
  obtain ⟨e', q, he', hq, hnone, hsrc, -⟩ := h.original hd
  obtain ⟨p, hp, ⟨e'', he'', hq'⟩, -⟩ := h.carries hd
  obtain rfl := hp.unique ⟨e', he', hq⟩
  obtain rfl := Option.some.inj (he.symm.trans he'')
  obtain rfl := Option.some.inj (hk.symm.trans (Emission.key?_eq hq'))
  have hkey := Emission.key?_eq hq
  exact ⟨o, e', he', hnone, hkey, hsrc.symm⟩

section Run

variable [DecidableEq ι]

/-- A packet whose relay waits has an original. -/
theorem Ledger.original_of_waiting (h : mesh.Ledger) {a : ι} {k : Key} {p : Pending}
    (hp : (mesh.nodes a).flooder.pending.get? k = some p) :
    ∃ (o : ℕ) (e : Emission ι), mesh.air[o]? = some e ∧ e.cause = none ∧ e.key? = some k ∧
      (mesh.nodes e.sender).identity.nodeId = k.1 := by
  obtain ⟨hheard, -⟩ := h.waiting a k p hp
  have hpos : 0 < (mesh.inbox a k).card := by omega
  obtain ⟨i, hi⟩ := Finset.card_pos.mp hpos
  obtain ⟨⟨e, he, hk⟩, -⟩ := mem_inbox.mp hi
  exact h.causal.exists_original he hk

/-- Everything sent has been heard by everybody else. -/
def AllHeard (mesh : Mesh ι) : Prop :=
  ∀ i ∈ List.range mesh.air.length, ∀ e ∈ mesh.air[i]?, ∀ b, b ≠ e.sender → (i, b) ∈ mesh.got

instance [Fintype ι] (mesh : Mesh ι) : Decidable mesh.AllHeard :=
  inferInstanceAs (Decidable (∀ i ∈ List.range mesh.air.length, ∀ e ∈ mesh.air[i]?,
    ∀ b, b ≠ e.sender → (i, b) ∈ mesh.got))

/-- No timer fires before everything sent has been heard. -/
def Prompt (mesh : Mesh ι) : Op ι → Prop
  | .act a (.relay now _) => ((mesh.nodes a).flooder.due now).1 ≠ [] → mesh.AllHeard
  | _ => True

instance [Fintype ι] (mesh : Mesh ι) (op : Op ι) : Decidable (mesh.Prompt op) :=
  match op with
  | .act a (.relay now _) =>
    inferInstanceAs (Decidable (((mesh.nodes a).flooder.due now).1 ≠ [] → mesh.AllHeard))
  | .deliver _ _ _ _ | .originate _ _ | .act _ (.frame _ _ _) | .act _ (.announce _ _)
  | .act _ (.tick _) | .act _ (.flush _) | .act _ (.expire _ _ _) | .act _ (.nextHop _)
  | .act _ (.warm _) => isTrue trivial

/-- The steps of nodes that all hear each other. -/
def Neighbourly (mac : ι → Mac) (mesh : Mesh ι) (op : Op ι) : Prop :=
  mesh.Gentle mac op ∧ mesh.Sends op ∧ mesh.Prompt op

instance [Fintype ι] (mesh : Mesh ι) (op : Op ι) : Decidable (mesh.Neighbourly mac op) :=
  inferInstanceAs (Decidable (_ ∧ _ ∧ _))

/-- What runs of such nodes with the threshold `T` keep: a node first hears the original,
and no packet is relayed more often than `T` times. -/
structure Paced (T : ℕ) (mesh : Mesh ι) : Prop where
  fates : mesh.Fates
  pos : 0 < T
  threshold_eq : ∀ b, (mesh.nodes b).flooder.threshold = T
  first : ∀ b k i, k.1 ≠ (mesh.nodes b).identity.nodeId → (mesh.inbox b k).Nonempty →
    mesh.took b k = some i → ∃ e, mesh.air[i]? = some e ∧ e.cause = none
  heard : ∀ k, mesh.relayers k ≠ [] → ∀ b, k.1 ≠ (mesh.nodes b).identity.nodeId →
    (mesh.inbox b k).Nonempty
  bounded : ∀ k, (mesh.relayers k).length ≤ T

variable {T : ℕ}

/-- Once all is heard, a relay that waits has counted every relay. -/
theorem Ledger.length_relayers_le (h : mesh.Ledger) (hall : mesh.AllHeard) {a : ι} {k : Key}
    {p : Pending} (hp : (mesh.nodes a).flooder.pending.get? k = some p) :
    (mesh.relayers k).length ≤ p.heard := by
  obtain ⟨hheard, hnot⟩ := h.waiting a k p hp
  have hforeign : k.1 ≠ (mesh.nodes a).identity.nodeId := by
    obtain ⟨_, _, ht⟩ := h.minds a
    exact ht.foreign k p hp
  have hsub : mesh.others a k ⊆ mesh.inbox a k := by
    intro i hi
    obtain ⟨e, he, hk, hne⟩ := mem_others.mp hi
    have hlt := (List.getElem?_eq_some_iff.mp he).1
    exact mem_inbox.mpr ⟨⟨e, he, hk⟩, hall i (List.mem_range.mpr hlt) e he a hne.symm⟩
  have hcard := Finset.card_le_card hsub
  -- the original is by another node, and none of the relays is by `a`
  have horiginal : 0 < mesh.air.countP
      fun e => decide (e.cause = none ∧ e.key? = some k ∧ e.sender ≠ a) := by
    obtain ⟨o, e, he, hnone, hk, hid⟩ := h.original_of_waiting hp
    refine List.countP_pos_iff.mpr ⟨e, List.mem_of_getElem? he, ?_⟩
    simp only [decide_eq_true_eq]
    exact ⟨hnone, hk, fun hs => hforeign (by rw [← hid, hs])⟩
  have hfilter : (mesh.relayers k).filter (fun b => decide (b ≠ a)) = mesh.relayers k := by
    refine List.filter_eq_self.mpr fun b hb => ?_
    simp only [decide_eq_true_eq]
    rintro rfl
    exact hnot hb
  rw [card_others, hfilter] at hcard
  omega

/-- Once all is heard, all others have received a packet whose relay waits. -/
theorem Ledger.received_of_waiting (h : mesh.Ledger) (hall : mesh.AllHeard) {a b : ι} {k : Key}
    {p : Pending} (hp : (mesh.nodes a).flooder.pending.get? k = some p)
    (hb : k.1 ≠ (mesh.nodes b).identity.nodeId) : (mesh.inbox b k).Nonempty := by
  obtain ⟨o, e, he, -, hk, hid⟩ := h.original_of_waiting hp
  have hlt := (List.getElem?_eq_some_iff.mp he).1
  exact ⟨o, mem_inbox.mpr ⟨⟨e, he, hk⟩, hall o (List.mem_range.mpr hlt) e he b
    fun hs => hb (by rw [← hid, hs])⟩⟩

/-- What goes out had waited, and all was heard by then. -/
theorem Ledger.relayers_prompt (h : mesh.Ledger) {a : ι} {op : Node.Op} {n : Node}
    {es : List Event} (hop : op.isFrame = false) (hn : (mesh.nodes a).step c op = some (n, es))
    (hprompt : mesh.Prompt (.act a op)) (k : Key) :
    (mesh.acted a op n es).relayers k = mesh.relayers k ∨
      (mesh.acted a op n es).relayers k = mesh.relayers k ++ [a] ∧ mesh.AllHeard ∧
        ∃ p, (mesh.nodes a).flooder.pending.get? k = some p := by
  have ht := Node.transmits_step hop hn
  rw [Mesh.relayers_acted]
  rcases h.newly_relayed ht k with hnil | ⟨hone, p, hp, hnone⟩
  · exact Or.inl (by rw [hnil, List.append_nil])
  · refine Or.inr ⟨by rw [hone], ?_, p, hp⟩
    obtain ⟨now, sends, rfl, hdue⟩ := h.due_of_dropped ht hp hnone
    exact hprompt fun hnil => by simp [hnil] at hdue

theorem Paced.deliver (h : mesh.Paced T) {i : ℕ} {a : ι} {rssi : Option ℤ} {clk : HandleClock}
    {e : Emission ι} {n : Node} {es : List Event} (he : mesh.air[i]? = some e)
    (hn : (mesh.nodes a).handle c e.data ⟨mac e.sender, rssi⟩ clk = some (n, es))
    (hret : (mesh.nodes a).Retains (.frame e.data ⟨mac e.sender, rssi⟩ clk))
    (hfates : (mesh.delivered i e a rssi clk n).Fates) :
    (mesh.delivered i e a rssi clk n).Paced T := by
  obtain ⟨pkt, hpkt, -⟩ := h.fates.ledger.causal.air i e he
  have hkey := Emission.key?_eq hpkt
  refine ⟨hfates, h.pos, fun b => ?_, fun b k j hk hin htook => ?_, fun k hk b hb => ?_, h.bounded⟩
  · rw [threshold_delivered hn, h.threshold_eq]
  · rw [nodeId_delivered hn] at hk
    by_cases hbk : b = a ∧ k = pkt.key
    · obtain ⟨rfl, rfl⟩ := hbk
      rw [took_delivered_self, h.fates.ledger.takesUp_iff hpkt hret hk] at htook
      by_cases hseen : pkt.key ∈ (mesh.nodes b).flooder.seen.d.keys
      · rw [if_pos hseen, if_neg (by simp)] at htook
        exact h.first b pkt.key j hk (h.fates.received b pkt.key hk hseen) htook
      · -- nobody has relayed the packet yet, so this is the original
        rw [if_neg hseen, if_pos rfl] at htook
        obtain rfl := Option.some.inj htook
        refine ⟨e, he, ?_⟩
        by_contra hcause
        have hmem : e.sender ∈ mesh.relayers pkt.key := mem_relayers.mpr
          ⟨e, List.mem_of_getElem? he, Option.isSome_iff_ne_none.mpr hcause, hkey, rfl⟩
        exact hseen (h.fates.ledger.known b pkt.key hk
          (h.heard pkt.key (List.ne_nil_of_mem hmem) b hk))
    · have hne := not_and_or.mp hbk
      rw [inbox_delivered_of_ne he hkey hne] at hin
      rw [took_delivered_elsewhere hpkt hne] at htook
      exact h.first b k j hk hin htook
  · rw [nodeId_delivered hn] at hb
    exact (h.heard k hk b hb).mono inbox_subset_delivered

theorem Paced.act (h : mesh.Paced T) {a : ι} {op : Node.Op} {n : Node} {es : List Event}
    (hop : op.isFrame = false) (hn : (mesh.nodes a).step c op = some (n, es))
    (hprompt : mesh.Prompt (.act a op)) (hfates : (mesh.acted a op n es).Fates) :
    (mesh.acted a op n es).Paced T := by
  have hledger := h.fates.ledger
  have hcases := hledger.relayers_prompt hop hn hprompt
  refine ⟨hfates, h.pos, fun b => ?_, fun b k i hk hin htook => ?_, fun k hk b hb => ?_,
    fun k => ?_⟩
  · rw [threshold_acted hn, h.threshold_eq]
  · rw [nodeId_acted hn] at hk
    rw [hledger.inbox_acted] at hin
    obtain ⟨e, he, hnone⟩ := h.first b k i hk hin htook
    have hlt := (List.getElem?_eq_some_iff.mp he).1
    exact ⟨e, by rw [air_acted, List.getElem?_append_left hlt, he], hnone⟩
  · rw [nodeId_acted hn] at hb
    rw [hledger.inbox_acted]
    rcases hcases k with hsame | ⟨-, hall, p, hp⟩
    · exact h.heard k (hsame ▸ hk) b hb
    · exact hledger.received_of_waiting hall hp hb
  · rcases hcases k with hsame | ⟨hmore, hall, p, hp⟩
    · rw [hsame]
      exact h.bounded k
    · have hle := hledger.length_relayers_le hall hp
      obtain ⟨_, _, hm⟩ := hledger.minds a
      have hlt := hm.heard_lt ((h.threshold_eq a).symm ▸ h.pos) k p hp
      rw [h.threshold_eq] at hlt
      rw [hmore, List.length_append, List.length_singleton]
      omega

theorem Paced.originate (h : mesh.Paced T) {a : ι} {b : Bytes}
    (hfates : (mesh.originated a b).Fates) : (mesh.originated a b).Paced T := by
  refine ⟨hfates, h.pos, h.threshold_eq, fun x k i hk hin htook => ?_, fun k hk x hx => ?_,
    fun k => ?_⟩
  · rw [h.fates.ledger.inbox_originated] at hin
    obtain ⟨e, he, hnone⟩ := h.first x k i hk hin htook
    have hlt := (List.getElem?_eq_some_iff.mp he).1
    exact ⟨e, by rw [air_originated, List.getElem?_append_left hlt, he], hnone⟩
  · rw [relayers_originated] at hk
    rw [h.fates.ledger.inbox_originated]
    exact h.heard k hk x hx
  · rw [relayers_originated]
    exact h.bounded k

theorem Paced.step (h : mesh.Paced T) {op : Op ι} {es : List Event}
    (hguard : mesh.Neighbourly mac op) (hx : mesh.step c mac op = some (mesh', es)) :
    mesh'.Paced T := by
  obtain ⟨hgentle, hsends, hprompt⟩ := hguard
  have hfates := h.fates.step hgentle hsends hx
  cases step_cases hx with
  | deliver e n es he hn => exact h.deliver he hn (hgentle e he).2.2 hfates
  | originate b _ _ => exact h.originate hfates
  | act n es hop hn => exact h.act hop hn hprompt hfates

theorem Fresh.paced (h : mesh.Fresh)
    (hseen : ∀ a, (mesh.nodes a).flooder.seen.d = OrderedDict.empty)
    (hthr : ∀ a, (mesh.nodes a).flooder.threshold = T) (hT : 0 < T) : mesh.Paced T where
  fates := h.fates hseen
  pos := hT
  threshold_eq := hthr
  first b k i _ hin := by
    obtain ⟨j, hj⟩ := hin
    have hgot := (mem_inbox.mp hj).2
    simp [h.got] at hgot
  heard k hk := by simp [relayers, h.air] at hk
  bounded k := by simp [relayers, h.air]

/-- Nobody relays its own packet, and nobody relays one twice. -/
theorem Ledger.length_relayers_lt [Fintype ι] (h : mesh.Ledger) {o : ℕ} {e : Emission ι}
    {p : Packet} (he : mesh.air[o]? = some e) (hnone : e.cause = none)
    (hp : Packet.fromBytes e.data = .ok p) :
    (mesh.relayers p.key).length < Fintype.card ι := by
  have hnot : e.sender ∉ mesh.relayers p.key := fun hmem =>
    (h.causal.inbox_of_mem_relayers hmem).2 (h.causal.owner he hnone hp).symm
  have hnodup : (e.sender :: mesh.relayers p.key).Nodup :=
    List.nodup_cons.mpr ⟨hnot, h.nodup p.key⟩
  exact hnodup.length_le_card

/-- While the threshold is not reached, all others relay a packet that has a hop left. -/
theorem Paced.relayed (h : mesh.Paced T) {o : ℕ} {e : Emission ι} {p : Packet}
    (he : mesh.air[o]? = some e) (hnone : e.cause = none) (hp : Packet.fromBytes e.data = .ok p)
    (hhops : 1 ≤ p.hopLimit) {b : ι} (hk : p.key.1 ≠ (mesh.nodes b).identity.nodeId)
    (hheard : (o, b) ∈ mesh.got) (hdone : (mesh.nodes b).flooder.pending.get? p.key = none)
    (hlt : (mesh.relayers p.key).length < T) : b ∈ mesh.relayers p.key := by
  have hkey := Emission.key?_eq hp
  have hin : (mesh.inbox b p.key).Nonempty := ⟨o, mem_inbox.mpr ⟨⟨e, he, hkey⟩, hheard⟩⟩
  obtain hb | ⟨i, q, htook, hi, hq, hspent⟩ :=
    h.fates.relayed_or_spent hk hin hdone (h.threshold_eq b ▸ hlt)
  · exact hb
  · -- what it took up is the original, and this one has a hop left
    obtain ⟨e', he', hnone'⟩ := h.first b p.key i hk hin htook
    obtain ⟨⟨e'', he'', hk''⟩, -⟩ := mem_inbox.mp hi
    obtain rfl := Option.some.inj (he'.symm.trans he'')
    obtain rfl := h.fates.ledger.original_unique he he' hkey hk'' hnone hnone'
    obtain rfl := hq.unique ⟨e, he, hp⟩
    cases hspent.symm.trans (Packet.relayed_eq_some_iff.mpr ⟨hhops, rfl⟩)

end Run

end Mesh

variable {ι : Type} [DecidableEq ι] [Fintype ι]

/-- Among an originator and the other nodes, which all hear each other and have the
threshold `T`: in every run from empty caches whose timers fire once all that was sent is
heard, and in which no send fails, a packet originated with a hop left has been relayed as
often as there are other nodes, but `T` times at most, when all have heard the original and
none of its relays waits any more. -/
theorem relays_capped (c : Crypto) (mac : ι → Mac) {T : ℕ} (hT : 0 < T) {mesh₀ mesh : Mesh ι}
    (h₀ : mesh₀.Fresh) (hseen : ∀ a, (mesh₀.nodes a).flooder.seen.d = OrderedDict.empty)
    (hthr : ∀ a, (mesh₀.nodes a).flooder.threshold = T)
    (hids : Function.Injective fun a => (mesh₀.nodes a).identity.nodeId)
    {ops : List (Mesh.Op ι)} {ess : List (List Event)}
    (hx : exec (guarded (Mesh.Neighbourly mac) (Mesh.step c mac)) mesh₀ ops = some (mesh, ess))
    {o : ℕ} {e : Emission ι} (he : mesh.air[o]? = some e) (horiginal : e.cause = none)
    {p : Packet} (hp : Packet.fromBytes e.data = .ok p) (hhops : 1 ≤ p.hopLimit)
    (hheard : ∀ b, b ≠ e.sender → (o, b) ∈ mesh.got)
    (hdone : ∀ b, (mesh.nodes b).flooder.pending.get? p.key = none) :
    (mesh.relayers p.key).length = min (Fintype.card ι - 1) T := by
  have h : mesh.Paced T :=
    exec_guarded_invariant (fun hs hguard hstep => Mesh.Paced.step hs hguard hstep)
      (h₀.paced hseen hthr hT) hx
  have hlimit := h.fates.ledger.length_relayers_lt he horiginal hp
  have hbound := h.bounded p.key
  by_cases hlt : (mesh.relayers p.key).length < T
  · have hall : Finset.univ.erase e.sender ⊆ (mesh.relayers p.key).toFinset := by
      intro b hb
      have hne := (Finset.mem_erase.mp hb).1
      have hk : p.key.1 ≠ (mesh.nodes b).identity.nodeId := h.fates.ledger.causal.foreign
        ((Mesh.extends_exec (exec_of_guarded hx)).injective hids) he horiginal hp hne
      exact List.mem_toFinset.mpr
        (h.relayed he horiginal hp hhops hk (hheard b hne) (hdone b) hlt)
    have hcard := Finset.card_le_card hall
    rw [Finset.card_erase_of_mem (Finset.mem_univ _), Finset.card_univ,
      List.toFinset_card_of_nodup (h.fates.ledger.nodup _)] at hcard
    omega
  · omega

/-- One relay for two neighbours, as the threshold of 1 has it. -/
theorem relays_capped_line : ∃ mesh ess e p,
    exec (guarded (Mesh.Neighbourly lineMac) (Mesh.step lineCrypto lineMac)) (lineMeshAt 1)
      (lineShared ++ [.deliver 1 2 none (HandleClock.const 101)]) = some (mesh, ess) ∧
    mesh.air[0]? = some e ∧ Packet.fromBytes e.data = .ok p ∧
    (mesh.relayers p.key).length = min (Fintype.card (Fin 3) - 1) 1 := by
  have hrun : (exec (guarded (Mesh.Neighbourly lineMac) (Mesh.step lineCrypto lineMac))
      (lineMeshAt 1) (lineShared ++ [.deliver 1 2 none (HandleClock.const 101)])).bind (fun r =>
        (r.1.air[0]?).bind fun e => (Packet.fromBytes e.data).toOption.map fun p =>
          decide (e.cause = none ∧ 1 ≤ p.hopLimit ∧ (∀ b, b ≠ e.sender → (0, b) ∈ r.1.got) ∧
            ∀ b, (r.1.nodes b).flooder.pending.get? p.key = none)) = some true := by
    decide +kernel
  obtain ⟨⟨mesh, ess⟩, hx, hrun⟩ := Option.bind_eq_some_iff.mp hrun
  obtain ⟨e, he, hrun⟩ := Option.bind_eq_some_iff.mp hrun
  obtain ⟨p, hp, hrun⟩ := Option.map_eq_some_iff.mp hrun
  obtain ⟨hnone, hhops, hheard, hdone⟩ := of_decide_eq_true hrun
  have hok := Packet.fromBytes_of_toOption hp
  have hinj : Function.Injective fun a => ((lineMeshAt 1).nodes a).identity.nodeId := by
    unfold Function.Injective
    decide +kernel
  exact ⟨mesh, ess, e, p, hx, he, hok, relays_capped lineCrypto lineMac Nat.one_pos
    (fresh_lineMeshAt 1) (fun _ => rfl) (fun _ => rfl)
    hinj hx he hnone hok hhops hheard hdone⟩

end Beachedmesh
