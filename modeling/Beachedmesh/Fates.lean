import Beachedmesh.Ledger

/-!
# What becomes of a packet at a node

A run is diligent where it is gentle and every relay that is due goes out. There a node
that has received a packet of others has taken up its first copy, and this copy had no
hops left, or its relay waits, or it was sent, or enough others have sent theirs.
-/
namespace Beachedmesh
open Machine

namespace Mesh

variable {ι : Type} {c : Crypto} {mac : ι → Mac} {mesh mesh' : Mesh ι}

/-- No send of a relay fails. -/
def Sends (mesh : Mesh ι) : Op ι → Prop
  | .act a (.relay now sends) => ((mesh.nodes a).flooder.due now).1.length ≤ sends
  | _ => True

instance (mesh : Mesh ι) (op : Op ι) : Decidable (mesh.Sends op) :=
  match op with
  | .act a (.relay now sends) =>
    inferInstanceAs (Decidable (((mesh.nodes a).flooder.due now).1.length ≤ sends))
  | .deliver _ _ _ _ | .originate _ _ | .act _ (.frame _ _ _) | .act _ (.announce _ _)
  | .act _ (.tick _) | .act _ (.flush _) | .act _ (.expire _ _ _) | .act _ (.nextHop _)
  | .act _ (.warm _) => isTrue trivial

/-- What became of the packet with the key `k` that node `b` took up as `i`. -/
inductive Fate (mesh : Mesh ι) (b : ι) (k : Key) (q : Packet) : Prop
  | spent : q.relayed = none → Fate mesh b k q
  | waiting (p : Pending) : (mesh.nodes b).flooder.pending.get? k = some p → Fate mesh b k q
  | relayed : b ∈ mesh.relayers k → Fate mesh b k q
  | cancelled : (mesh.nodes b).flooder.threshold ≤ (mesh.relayers k).length → Fate mesh b k q

/-- Another step leaves a packet its fate while it leaves the relay that waits. -/
theorem Fate.mono {b : ι} {k : Key} {q : Packet} (h : mesh.Fate b k q)
    (hthr : (mesh'.nodes b).flooder.threshold = (mesh.nodes b).flooder.threshold)
    (hrelay : mesh.relayers k <+: mesh'.relayers k)
    (hwait : ∀ p, (mesh.nodes b).flooder.pending.get? k = some p → mesh'.Fate b k q) :
    mesh'.Fate b k q := by
  cases h with
  | spent hq => exact .spent hq
  | waiting p hp => exact hwait p hp
  | relayed hb => exact .relayed (hrelay.subset hb)
  | cancelled hle => exact .cancelled (hthr ▸ hle.trans hrelay.length_le)

theorem threshold_step {n n' : Node} {op : Node.Op} {es : List Event}
    (h : n.step c op = some (n', es)) : n'.flooder.threshold = n.flooder.threshold := by
  rw [Node.flooder_step h]
  cases op.flood? with
  | none => rfl
  | some fop => exact Flooder.threshold_after _ _

theorem takesUp_eq {n : Node} {data : Bytes} {pkt : Packet} (h : Packet.fromBytes data = .ok pkt)
    (rssi : Option ℤ) (clk : HandleClock) : takesUp n data rssi clk =
      if (n.flooder.onReceive pkt rssi clk.receive clk.draw).1.IsFirst then some pkt.key
      else none := by
  simp only [takesUp, h]

section Run

variable [DecidableEq ι]

theorem threshold_delivered {i : ℕ} {e : Emission ι} {a : ι} {rssi : Option ℤ} {clk : HandleClock}
    {n : Node} {es : List Event}
    (hn : (mesh.nodes a).handle c e.data ⟨mac e.sender, rssi⟩ clk = some (n, es)) (b : ι) :
    ((mesh.delivered i e a rssi clk n).nodes b).flooder.threshold =
      (mesh.nodes b).flooder.threshold := by
  by_cases hb : b = a
  · have hstep : (mesh.nodes a).step c (.frame e.data ⟨mac e.sender, rssi⟩ clk) = some (n, es) := hn
    rw [hb, nodes_delivered_self, threshold_step hstep]
  · rw [nodes_delivered_of_ne hb]

theorem threshold_acted {a : ι} {op : Node.Op} {n : Node} {es : List Event}
    (hn : (mesh.nodes a).step c op = some (n, es)) (b : ι) :
    ((mesh.acted a op n es).nodes b).flooder.threshold = (mesh.nodes b).flooder.threshold := by
  by_cases hb : b = a
  · rw [hb, nodes_acted_self, threshold_step hn]
  · rw [nodes_acted_of_ne hb]

/-- What diligent runs keep. -/
structure Fates (mesh : Mesh ι) : Prop where
  ledger : mesh.Ledger
  received : ∀ b k, k.1 ≠ (mesh.nodes b).identity.nodeId →
    k ∈ (mesh.nodes b).flooder.seen.d.keys → (mesh.inbox b k).Nonempty
  fate : ∀ b k, k.1 ≠ (mesh.nodes b).identity.nodeId → (mesh.inbox b k).Nonempty →
    ∃ i q, mesh.took b k = some i ∧ i ∈ mesh.inbox b k ∧ mesh.Carries i q ∧ mesh.Fate b k q

/-- A reception changes what its receiver took up under the key of the packet alone. -/
theorem took_delivered_elsewhere {i : ℕ} {e : Emission ι} {a b : ι} {rssi : Option ℤ}
    {clk : HandleClock} {n : Node} {pkt : Packet} (hpkt : Packet.fromBytes e.data = .ok pkt)
    {k : Key} (hbk : b ≠ a ∨ k ≠ pkt.key) :
    (mesh.delivered i e a rssi clk n).took b k = mesh.took b k := by
  by_cases hb : b = a
  · subst hb
    have hk : pkt.key ≠ k := (hbk.resolve_left (not_not_intro rfl)).symm
    have hup : takesUp (mesh.nodes b) e.data rssi clk ≠ some k := by
      rw [takesUp_eq hpkt]
      split_ifs
      · exact fun hup => hk (Option.some.inj hup)
      · simp
    rw [took_delivered_self, if_neg hup]
  · rw [took_delivered_of_ne hb]

/-- A foreign packet is taken up when its key is not in the cache, and only then. -/
theorem Ledger.takesUp_iff (h : mesh.Ledger) {a : ι} {rssi : Option ℤ} {clk : HandleClock}
    {e : Emission ι} {pkt : Packet} (hpkt : Packet.fromBytes e.data = .ok pkt)
    (hret : (mesh.nodes a).Retains (.frame e.data ⟨mac e.sender, rssi⟩ clk))
    (hsrc : pkt.src ≠ (mesh.nodes a).identity.nodeId) :
    takesUp (mesh.nodes a) e.data rssi clk =
      if pkt.key ∈ (mesh.nodes a).flooder.seen.d.keys then none else some pkt.key := by
  obtain ⟨capacity, ttl, ht⟩ := h.minds a
  have htook := ht.took_of_retains (hret _ (Node.flood?_frame hpkt ⟨mac e.sender, rssi⟩ clk)) hsrc
  rw [takesUp_eq hpkt]
  by_cases hk : pkt.key ∈ (mesh.nodes a).flooder.seen.d.keys
  · rw [if_pos hk, if_neg fun hfirst => htook.first.mp hfirst hk]
  · rw [if_neg hk, if_pos (htook.first.mpr hk)]

/-- A first copy is taken up: its relay waits, or it has no hops left. -/
theorem Fates.first_copy (h : mesh.Fates) {i : ℕ} {a : ι} {rssi : Option ℤ} {clk : HandleClock}
    {e : Emission ι} {n : Node} {es : List Event} {pkt : Packet}
    (hpkt : Packet.fromBytes e.data = .ok pkt)
    (hn : (mesh.nodes a).handle c e.data ⟨mac e.sender, rssi⟩ clk = some (n, es))
    (hret : (mesh.nodes a).Retains (.frame e.data ⟨mac e.sender, rssi⟩ clk))
    (hsrc : pkt.key.1 ≠ (mesh.nodes a).identity.nodeId)
    (hempty : ¬ (mesh.inbox a pkt.key).Nonempty) :
    (mesh.delivered i e a rssi clk n).took a pkt.key = some i ∧
      (mesh.delivered i e a rssi clk n).Fate a pkt.key pkt := by
  have hseen : pkt.key ∉ (mesh.nodes a).flooder.seen.d.keys := fun hk =>
    hempty (h.received a pkt.key hsrc hk)
  have hnone : (mesh.nodes a).flooder.pending.get? pkt.key = none := by
    obtain ⟨capacity, ttl, ht⟩ := h.ledger.minds a
    exact OrderedDict.get?_eq_none_iff.mpr fun hk => hseen (ht.seen _ hk)
  refine ⟨?_, ?_⟩
  · rw [took_delivered_self, h.ledger.takesUp_iff hpkt hret hsrc, if_neg hseen, if_pos rfl]
  · cases hr : pkt.relayed with
    | none => exact .spent hr
    | some relay =>
      refine .waiting ⟨relay, clk.receive.schedule + relayDelay rssi clk.draw, 0⟩ ?_
      rw [nodes_delivered_self, (h.ledger.flooder_deliver hpkt hn hret hsrc).2, if_pos rfl,
        Flooder.slot, hnone]
      simp [hseen, hr]

/-- A later copy is counted, and cancels the relay when enough others have sent theirs. -/
theorem Fates.later_copy (h : mesh.Fates) {i : ℕ} {a : ι} {rssi : Option ℤ} {clk : HandleClock}
    {e : Emission ι} {n : Node} {es : List Event} {pkt q : Packet} (he : mesh.air[i]? = some e)
    (hpkt : Packet.fromBytes e.data = .ok pkt)
    (hn : (mesh.nodes a).handle c e.data ⟨mac e.sender, rssi⟩ clk = some (n, es))
    (hgentle : mesh.Gentle mac (.deliver i a rssi clk))
    (hsrc : pkt.key.1 ≠ (mesh.nodes a).identity.nodeId) (hfate : mesh.Fate a pkt.key q) :
    (mesh.delivered i e a rssi clk n).Fate a pkt.key q := by
  obtain ⟨hne, hnew, hret⟩ := hgentle e he
  have hthr := threshold_delivered (i := i) hn a
  have hflooder := (h.ledger.flooder_deliver hpkt hn hret hsrc).2
  refine hfate.mono hthr (List.prefix_refl _) fun p hp => ?_
  rw [if_pos rfl, Flooder.slot, hp] at hflooder
  dsimp only at hflooder
  cases hcount : p.counted (mesh.nodes a).flooder.threshold with
  | some p' => exact .waiting p' (by rw [nodes_delivered_self, hflooder, hcount])
  | none =>
    have hle := Pending.counted_eq_none hcount
    obtain ⟨hheard, -⟩ := h.ledger.waiting a pkt.key p hp
    have hcard := h.ledger.card_inbox_le he (Emission.key?_eq hpkt) hne hnew
    have hsize : ((mesh.relayers pkt.key).toFinset.erase a).card ≤
        (mesh.relayers pkt.key).length :=
      (Finset.card_erase_le).trans (List.toFinset_card_le _)
    refine .cancelled ?_
    rw [hthr]
    exact (hle.trans (hheard ▸ hcard)).trans hsize

theorem Fates.deliver (h : mesh.Fates) {i : ℕ} {a : ι} {rssi : Option ℤ} {clk : HandleClock}
    {e : Emission ι} {n : Node} {es : List Event} (he : mesh.air[i]? = some e)
    (hn : (mesh.nodes a).handle c e.data ⟨mac e.sender, rssi⟩ clk = some (n, es))
    (hgentle : mesh.Gentle mac (.deliver i a rssi clk))
    (hledger : (mesh.delivered i e a rssi clk n).Ledger) :
    (mesh.delivered i e a rssi clk n).Fates := by
  obtain ⟨-, -, hret⟩ := hgentle e he
  obtain ⟨pkt, hpkt, -⟩ := h.ledger.causal.air i e he
  have hkey := Emission.key?_eq hpkt
  have hself : i ∈ (mesh.delivered i e a rssi clk n).inbox a pkt.key := by
    rw [inbox_delivered_self he hkey]
    exact Finset.mem_insert_self _ _
  refine ⟨hledger, fun b k hk hseen => ?_, fun b k hk hin => ?_⟩
  · rw [nodeId_delivered hn] at hk
    rcases (h.ledger.seen_delivered hpkt hn hret hk).mp hseen with hold | ⟨rfl, rfl⟩
    · exact (h.received b k hk hold).mono inbox_subset_delivered
    · exact ⟨i, hself⟩
  · rw [nodeId_delivered hn] at hk
    by_cases hbk : b = a ∧ k = pkt.key
    · obtain ⟨rfl, rfl⟩ := hbk
      by_cases hold : (mesh.inbox b pkt.key).Nonempty
      · obtain ⟨j, q, htook, hj, hq, hfate⟩ := h.fate b pkt.key hk hold
        have hseen := h.ledger.known b pkt.key hk hold
        refine ⟨j, q, ?_, inbox_subset_delivered hj, hq,
          h.later_copy he hpkt hn hgentle hk hfate⟩
        rw [took_delivered_self, h.ledger.takesUp_iff hpkt hret hk, if_pos hseen]
        simpa using htook
      · obtain ⟨htook, hfate⟩ := h.first_copy (i := i) hpkt hn hret hk hold
        exact ⟨i, pkt, htook, hself, ⟨e, he, hpkt⟩, hfate⟩
    · have hne := not_and_or.mp hbk
      rw [inbox_delivered_of_ne he hkey hne] at hin
      obtain ⟨j, q, htook, hj, hq, hfate⟩ := h.fate b k hk hin
      refine ⟨j, q, by rw [took_delivered_elsewhere hpkt hne, htook], inbox_subset_delivered hj,
        hq, hfate.mono (threshold_delivered hn b) (List.prefix_refl _) fun p hp => .waiting p ?_⟩
      rw [h.ledger.pending_delivered_of_ne hpkt hn hret hk hne, hp]

/-- Where nothing waits and not enough others have relayed, a node that has received a packet
has relayed it, unless its first copy had no hops left. -/
theorem Fates.relayed_or_spent (h : mesh.Fates) {b : ι} {k : Key}
    (hk : k.1 ≠ (mesh.nodes b).identity.nodeId) (hin : (mesh.inbox b k).Nonempty)
    (hdone : (mesh.nodes b).flooder.pending.get? k = none)
    (hlt : (mesh.relayers k).length < (mesh.nodes b).flooder.threshold) :
    b ∈ mesh.relayers k ∨ ∃ i q, mesh.took b k = some i ∧ i ∈ mesh.inbox b k ∧
      mesh.Carries i q ∧ q.relayed = none := by
  obtain ⟨i, q, htook, hi, hq, hfate⟩ := h.fate b k hk hin
  cases hfate with
  | spent hspent => exact Or.inr ⟨i, q, htook, hi, hq, hspent⟩
  | waiting p hp => cases hdone.symm.trans hp
  | relayed hb => exact Or.inl hb
  | cancelled hge => exact absurd hge (not_le.mpr hlt)

/-- A relay that no longer waits has gone out. -/
theorem Ledger.relayed_of_dropped (h : mesh.Ledger) {a : ι} {op : Node.Op} {f : Flooder}
    {bs : List Bytes} (ht : Node.Transmits (mesh.nodes a) op f bs) (hsends : mesh.Sends (.act a op))
    {k : Key} {p : Pending} (hp : (mesh.nodes a).flooder.pending.get? k = some p)
    (hnone : f.pending.get? k = none) :
    (mesh.emissions a op bs).filterMap (Emission.relayer? k) = [a] := by
  obtain ⟨now, sends, rfl, hdue⟩ := h.due_of_dropped ht hp hnone
  obtain ⟨capacity, ttl, hm⟩ := h.minds a
  rw [h.causal.relayers_emissions ht]
  dsimp only
  rw [List.take_of_length_le hsends, List.filterMap_eq_of_nodup ?_ k a, if_pos hdue]
  rw [hm.map_key_due]
  exact OrderedDict.nodup_keys _

theorem Fates.act (h : mesh.Fates) {a : ι} {op : Node.Op} {n : Node} {es : List Event}
    (hop : op.isFrame = false) (hn : (mesh.nodes a).step c op = some (n, es))
    (hret : (mesh.nodes a).Retains op) (hsends : mesh.Sends (.act a op))
    (hledger : (mesh.acted a op n es).Ledger) : (mesh.acted a op n es).Fates := by
  have ht := Node.transmits_step hop hn
  refine ⟨hledger, fun b k hk hseen => ?_, fun b k hk hin => ?_⟩
  · rw [nodeId_acted hn] at hk
    rw [h.ledger.inbox_acted]
    by_cases hb : b = a
    · subst hb
      rw [nodes_acted_self] at hseen
      exact h.received b k hk ((h.ledger.seen_act hop hn hret hk).mp hseen)
    · rw [nodes_acted_of_ne hb] at hseen
      exact h.received b k hk hseen
  · rw [nodeId_acted hn] at hk
    rw [h.ledger.inbox_acted] at hin ⊢
    obtain ⟨i, q, htook, hi, ⟨e, he, hq⟩, hfate⟩ := h.fate b k hk hin
    have hlt := (List.getElem?_eq_some_iff.mp he).1
    refine ⟨i, q, htook, hi, ⟨e, by rw [air_acted, List.getElem?_append_left hlt, he], hq⟩, ?_⟩
    have hprefix : mesh.relayers k <+: (mesh.acted a op n es).relayers k := by
      rw [relayers_acted]
      exact List.prefix_append _ _
    refine hfate.mono (threshold_acted hn b) hprefix fun p hp => ?_
    by_cases hb : b = a
    · subst hb
      cases hf : n.flooder.pending.get? k with
      | some p' => exact .waiting p' (by rw [nodes_acted_self, hf])
      | none =>
        refine .relayed ?_
        rw [relayers_acted, h.ledger.relayed_of_dropped ht hsends hp hf]
        simp
    · exact .waiting p (by rw [nodes_acted_of_ne hb, hp])

theorem Fates.originate (h : mesh.Fates) {a : ι} {b : Bytes}
    (hledger : (mesh.originated a b).Ledger) : (mesh.originated a b).Fates := by
  refine ⟨hledger, fun x k hk hseen => ?_, fun x k hk hin => ?_⟩
  · rw [h.ledger.inbox_originated]
    exact h.received x k hk hseen
  · rw [h.ledger.inbox_originated] at hin ⊢
    obtain ⟨i, q, htook, hi, ⟨e, he, hq⟩, hfate⟩ := h.fate x k hk hin
    have hlt := (List.getElem?_eq_some_iff.mp he).1
    refine ⟨i, q, htook, hi, ⟨e, by rw [air_originated, List.getElem?_append_left hlt, he], hq⟩, ?_⟩
    exact hfate.mono rfl (by rw [relayers_originated]) fun p hp => .waiting p hp

theorem Fates.step (h : mesh.Fates) {op : Op ι} {es : List Event} (hgentle : mesh.Gentle mac op)
    (hsends : mesh.Sends op) (hx : mesh.step c mac op = some (mesh', es)) : mesh'.Fates := by
  have hledger := h.ledger.step hgentle hx
  cases step_cases hx with
  | deliver e n es he hn => exact h.deliver he hn hgentle hledger
  | originate b _ _ => exact h.originate hledger
  | act n es hop hn => exact h.act hop hn hgentle.1 hsends hledger

/-- No step changes how many others a relay gives way to. -/
theorem thresholds_step {op : Op ι} {es : List Event}
    (hx : mesh.step c mac op = some (mesh', es)) (b : ι) :
    (mesh'.nodes b).flooder.threshold = (mesh.nodes b).flooder.threshold := by
  cases step_cases hx with
  | deliver e n es he hn => exact threshold_delivered hn b
  | originate b' _ _ => rfl
  | act n es hop hn => exact threshold_acted hn b

theorem thresholds_exec {ops : List (Op ι)} {ess : List (List Event)}
    (hx : Machine.exec (Mesh.step c mac) mesh ops = some (mesh', ess)) (b : ι) :
    (mesh'.nodes b).flooder.threshold = (mesh.nodes b).flooder.threshold :=
  exec_invariant (P := fun _ => True) (fun hs _ hstep => (thresholds_step hstep b).trans hs) rfl
    (by simp) hx

/-- All caches are empty. -/
theorem Fresh.fates (h : mesh.Fresh)
    (hseen : ∀ a, (mesh.nodes a).flooder.seen.d = OrderedDict.empty) : mesh.Fates where
  ledger := h.ledger fun a => by rw [hseen a]; exact Nat.zero_le _
  received a k _ hk := by simp [hseen a] at hk
  fate a k _ hin := by
    obtain ⟨i, hi⟩ := hin
    have hgot := (mem_inbox.mp hi).2
    simp [h.got] at hgot

end Run

end Mesh

end Beachedmesh
