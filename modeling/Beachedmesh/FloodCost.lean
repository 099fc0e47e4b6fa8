import Beachedmesh.HopCount
import Beachedmesh.Ledger
import Beachedmesh.Support.Generations

/-!
# What a flood costs

The cache of keys keeps a node from relaying a packet twice. Where it forgets, because it
is full or the key is too old, the hop limit still ends the flood: a node relays one
transmission once, so each has no more children than there are other nodes, and the
generations stop at the hop limit.
-/
namespace Beachedmesh
open Machine

namespace Mesh

variable {ι : Type} {c : Crypto} {mac : ι → Mac} {mesh mesh' : Mesh ι}

/-! ### The generations of a flood -/

/-- A descendant is in the air. -/
theorem Descends.lt {o i d : ℕ} (hd : mesh.Descends o i d) : i < mesh.air.length := by
  cases hd with
  | origin he _ => exact (List.getElem?_eq_some_iff.mp he).1
  | relay he _ _ => exact (List.getElem?_eq_some_iff.mp he).1

open scoped Classical in
/-- The transmissions over `d` relays. -/
noncomputable def generation (mesh : Mesh ι) (o d : ℕ) : Finset ℕ :=
  (Finset.range mesh.air.length).filter fun i => mesh.Descends o i d

theorem mem_generation {o d i : ℕ} : i ∈ mesh.generation o d ↔ mesh.Descends o i d := by
  classical
  rw [generation, Finset.mem_filter, Finset.mem_range, and_iff_right_iff_imp]
  exact Descends.lt

/-- The most that a flood over `n` nodes can cost. -/
def floodBound (n h : ℕ) : ℕ := 1 + (n - 1) * ∑ d ∈ Finset.range h, (n - 2) ^ d

theorem card_generation_zero_le (o : ℕ) : (mesh.generation o 0).card ≤ 1 := by
  refine Finset.card_le_one.mpr fun i hi j hj => ?_
  have hroot {i : ℕ} (hi : i ∈ mesh.generation o 0) : i = o := by
    cases mem_generation.mp hi
    rfl
  rw [hroot hi, hroot hj]

/-! ### Relays that wait -/

/-- The relays that are due have distinct keys. -/
theorem Causal.nodup_due (h : mesh.Causal) (a : ι) (now : ℚ) :
    (((mesh.nodes a).flooder.due now).1.map Packet.key).Nodup := by
  have hkeys : ((mesh.nodes a).flooder.due now).1.map Packet.key =
      ((mesh.nodes a).flooder.pending.entries.filter
        fun e => decide (e.2.sendAt ≤ now)).map Prod.fst := by
    rw [Flooder.due, List.map_map]
    refine List.map_congr_left fun e he => ?_
    have hget := OrderedDict.get?_eq_some_iff.mpr (List.mem_of_mem_filter he)
    exact (h.pending a e.1 e.2 hget).1
  rw [hkeys]
  exact (mesh.nodes a).flooder.pending.nodup_keys.sublist (List.filter_sublist.map _)

/-- Two waiting relays of a node that go back to one transmission are the same. -/
theorem Causal.took_injective (h : mesh.Causal) {a : ι} {k k' : Key} {p p' : Pending} {j : ℕ}
    (hp : (mesh.nodes a).flooder.pending.get? k = some p) (hj : mesh.took a k = some j)
    (hp' : (mesh.nodes a).flooder.pending.get? k' = some p') (hj' : mesh.took a k' = some j) :
    k = k' := by
  obtain ⟨hkey, j₁, h₁, hs⟩ := h.pending a k p hp
  obtain ⟨hkey', j₂, h₂, hs'⟩ := h.pending a k' p' hp'
  obtain rfl := Option.some.inj (h₁.symm.trans hj)
  obtain rfl := Option.some.inj (h₂.symm.trans hj')
  obtain ⟨q, hq, hr⟩ := hs.relayed
  obtain ⟨q', hq', hr'⟩ := hs'.relayed
  obtain rfl := hq.unique hq'
  rw [← hkey, ← hkey', Option.some.inj (hr.symm.trans hr')]

theorem Causal.mem_took_due (h : mesh.Causal) {a : ι} {now : ℚ} {sends j : ℕ}
    (hj : j ∈ (((mesh.nodes a).flooder.due now).1.take sends).filterMap
      fun p => mesh.took a p.key) :
    ∃ k p, (mesh.nodes a).flooder.pending.get? k = some p ∧ p.sendAt ≤ now ∧
      mesh.took a k = some j := by
  obtain ⟨q, hq, hqj⟩ := List.mem_filterMap.mp hj
  obtain ⟨k, p, hp, hdue, rfl⟩ := Flooder.mem_due_iff.mp (List.mem_of_mem_take hq)
  exact ⟨k, p, hp, hdue, (h.pending a k p hp).1 ▸ hqj⟩

theorem Causal.nodup_took_due (h : mesh.Causal) (a : ι) (now : ℚ) (sends : ℕ) :
    ((((mesh.nodes a).flooder.due now).1.take sends).filterMap
      fun p => mesh.took a p.key).Nodup := by
  have hkeys : ((((mesh.nodes a).flooder.due now).1.take sends).map Packet.key).Nodup := by
    rw [List.map_take]
    exact (h.nodup_due a now).sublist (List.take_sublist _ _)
  rw [List.Nodup, List.pairwise_filterMap]
  refine (List.pairwise_map.mp hkeys).imp_of_mem fun {q q'} hq hq' hne j hj j' hj' => ?_
  rintro rfl
  obtain ⟨k, p, hp, -, rfl⟩ := Flooder.mem_due_iff.mp (List.mem_of_mem_take hq)
  obtain ⟨k', p', hp', -, rfl⟩ := Flooder.mem_due_iff.mp (List.mem_of_mem_take hq')
  obtain ⟨rfl, -⟩ := h.pending a k p hp
  obtain ⟨rfl, -⟩ := h.pending a k' p' hp'
  exact hne (h.took_injective hp hj hp' hj')

/-! ### Who transmits a key -/

/-- The nodes that have transmitted the key, in order. -/
def senders (mesh : Mesh ι) (k : Key) : List ι :=
  (mesh.air.filter fun e => decide (e.key? = some k)).map Emission.sender

/-- The owner of a packet does not relay it. -/
theorem Causal.not_mem_relayers (h : mesh.Causal) {a : ι} {k : Key}
    (hk : k.1 = (mesh.nodes a).identity.nodeId) : a ∉ mesh.relayers k := by
  intro hmem
  obtain ⟨e, he, hcause, hkey, rfl⟩ := mem_relayers.mp hmem
  obtain ⟨i, hi⟩ := List.getElem?_of_mem he
  obtain ⟨q, hq, hcaused⟩ := h.air i e hi
  obtain rfl := Option.some.inj ((Emission.key?_eq hq).symm.trans hkey)
  cases hcaused with
  | original hnone _ => simp [hnone] at hcause
  | relay j _ _ hs => exact hs.foreign hk

/-! ### One relay for each node -/

section Relays

variable [DecidableEq ι]

/-- The transmission that `e` relays, where `a` sent `e`. -/
def relayOf? (a : ι) (e : Emission ι) : Option ℕ := if e.sender = a then e.cause else none

/-- The transmissions that `a` has relayed, in order. -/
def relayedBy (mesh : Mesh ι) (a : ι) : List ℕ := mesh.air.filterMap (relayOf? a)

/-- The radio hands a transmission to a node at most once, and not to its own sender. -/
def OncePerNode (mesh : Mesh ι) : Op ι → Prop
  | .deliver i a _ _ => ∀ e ∈ mesh.air[i]?, e.sender ≠ a ∧ (i, a) ∉ mesh.got
  | _ => True

instance (mesh : Mesh ι) (op : Op ι) : Decidable (mesh.OncePerNode op) :=
  match op with
  | .deliver i a _ _ => inferInstanceAs
      (Decidable (∀ e ∈ mesh.air[i]?, e.sender ≠ a ∧ (i, a) ∉ mesh.got))
  | .originate _ _ => isTrue trivial
  | .act _ _ => isTrue trivial

theorem mem_relayedBy {a : ι} {j : ℕ} :
    j ∈ mesh.relayedBy a ↔ ∃ e ∈ mesh.air, e.sender = a ∧ e.cause = some j := by
  simp only [relayedBy, List.mem_filterMap, relayOf?, Option.ite_none_right_eq_some]

/-- What keeps each transmission to one relay by each node. -/
structure Once (mesh : Mesh ι) : Prop where
  causal : mesh.Causal
  got : ∀ i a, (i, a) ∈ mesh.got → ∃ e, mesh.air[i]? = some e ∧ e.sender ≠ a
  nodup : ∀ a, (mesh.relayedBy a).Nodup
  unspent : ∀ a k p j, (mesh.nodes a).flooder.pending.get? k = some p → mesh.took a k = some j →
    j ∉ mesh.relayedBy a

theorem Fresh.once (h : mesh.Fresh) : mesh.Once where
  causal := h.causal
  got := by simp [h.got]
  nodup a := by simp [relayedBy, h.air]
  unspent a k p j hp := by simp [h.pending] at hp

/-- What a node relays it has received. -/
theorem Causal.got_of_relayed (h : mesh.Causal) {a : ι} {j : ℕ} (hj : j ∈ mesh.relayedBy a) :
    (j, a) ∈ mesh.got := by
  obtain ⟨e, he, rfl, hcause⟩ := mem_relayedBy.mp hj
  obtain ⟨i, hi⟩ := List.getElem?_of_mem he
  obtain ⟨q, -, hcaused⟩ := h.air i e hi
  cases hcaused with
  | original hnone _ => cases hcause.symm.trans hnone
  | relay j' hj' _ hs =>
    obtain rfl := Option.some.inj (hcause.symm.trans hj')
    exact hs.got

/-! ### One reception -/

/-- A relay that waits after a reception waited before, or goes back to what was received. -/
theorem Causal.took_delivered (h : mesh.Causal) {i : ℕ} {a : ι} {rssi : Option ℤ}
    {clk : HandleClock} {e : Emission ι} {n : Node} {es : List Event} (he : mesh.air[i]? = some e)
    (hn : (mesh.nodes a).handle c e.data ⟨mac e.sender, rssi⟩ clk = some (n, es)) {k : Key}
    {p : Pending} (hp : n.flooder.pending.get? k = some p) :
    (∃ q, (mesh.nodes a).flooder.pending.get? k = some q ∧ p.sendAt = q.sendAt ∧
      (mesh.delivered i e a rssi clk n).took a k = mesh.took a k) ∨
      (mesh.delivered i e a rssi clk n).took a k = some i ∧
        p.sendAt = clk.receive.schedule + relayDelay rssi clk.draw := by
  obtain ⟨pkt, hpkt, -⟩ := h.air i e he
  obtain ⟨v, hv⟩ := Node.onReceive_handle hpkt hn
  have hup : takesUp (mesh.nodes a) e.data rssi clk = if v.IsFirst then some pkt.key else none := by
    simp only [takesUp, hpkt, hv]
  rw [took_delivered_self, hup]
  rcases Flooder.entry_onReceive hv hp with ⟨q, hq, -, hsame⟩ | ⟨⟨rfl, -, hfirst, -⟩, hsend⟩
  · have hne : ¬ (v.IsFirst ∧ pkt.key = k) := by
      rintro ⟨hfirst, rfl⟩
      exact ((Flooder.isFirst_iff hv).mp hfirst).2 (Or.inl (OrderedDict.mem_keys_iff.mpr ⟨q, hq⟩))
    refine Or.inl ⟨q, hq, hsame, if_neg fun hk => hne ?_⟩
    split_ifs at hk with hfirst
    exact ⟨hfirst, Option.some.inj hk⟩
  · exact Or.inr ⟨by rw [if_pos hfirst, if_pos rfl], hsend⟩

theorem Once.deliver (h : mesh.Once) {i : ℕ} {a : ι} {rssi : Option ℤ} {clk : HandleClock}
    {e : Emission ι} {n : Node} {es : List Event} (he : mesh.air[i]? = some e)
    (hn : (mesh.nodes a).handle c e.data ⟨mac e.sender, rssi⟩ clk = some (n, es))
    (honce : mesh.OncePerNode (.deliver i a rssi clk))
    (hcausal : (mesh.delivered i e a rssi clk n).Causal) :
    (mesh.delivered i e a rssi clk n).Once := by
  obtain ⟨hsender, hnew⟩ := honce e he
  refine ⟨hcausal, fun j b hj => ?_, h.nodup, fun b k p j hp hj => ?_⟩
  · rcases List.mem_append.mp hj with hold | hlast
    · exact h.got j b hold
    · obtain ⟨rfl, rfl⟩ := Prod.mk.inj (List.mem_singleton.mp hlast)
      exact ⟨e, he, hsender⟩
  · by_cases hb : b = a
    · subst hb
      rw [nodes_delivered_self] at hp
      rcases h.causal.took_delivered he hn hp with ⟨q, hq, -, hsame⟩ | ⟨hlast, -⟩
      · exact h.unspent b k q j hq (hsame ▸ hj)
      · obtain rfl := Option.some.inj (hlast.symm.trans hj)
        exact fun hspent => hnew (h.causal.got_of_relayed hspent)
    · rw [nodes_delivered_of_ne hb] at hp
      rw [took_delivered_of_ne hb] at hj
      exact h.unspent b k p j hp hj

/-! ### One operation of a node -/

theorem relayedBy_append {new : List (Emission ι)} (hair : mesh'.air = mesh.air ++ new) (a : ι) :
    mesh'.relayedBy a = mesh.relayedBy a ++ new.filterMap (relayOf? a) := by
  rw [relayedBy, hair, List.filterMap_append, relayedBy]

/-- What the operation of a node adds to the transmissions that it has relayed. -/
theorem Causal.relayedBy_emissions (h : mesh.Causal) {a : ι} {op : Node.Op} {f : Flooder}
    {bs : List Bytes} (ht : Node.Transmits (mesh.nodes a) op f bs) (x : ι) :
    (mesh.emissions a op bs).filterMap (relayOf? x) = match op with
      | .relay now sends => if a = x then (((mesh.nodes a).flooder.due now).1.take sends).filterMap
          fun p => mesh.took a p.key else []
      | _ => [] := by
  have hnone (hop : ∀ now sends, op ≠ .relay now sends) :
      (mesh.emissions a op bs).filterMap (relayOf? x) = [] := by
    refine List.filterMap_eq_nil_iff.mpr fun e he => ?_
    obtain ⟨b, -, rfl⟩ := List.mem_map.mp he
    cases op <;> first
      | exact absurd rfl (hop _ _)
      | simp [relayOf?]
  cases ht with
  | @relay now sends _ hpacks =>
    have hwait (p : Packet) (hp : p ∈ ((mesh.nodes a).flooder.due now).1.take sends) :
        p.version = version := by
      obtain ⟨k', q, hq, -, rfl⟩ := Flooder.mem_due_iff.mp (List.mem_of_mem_take hp)
      obtain ⟨-, j, -, hs⟩ := h.pending a k' q hq
      exact hs.version_eq
    simp only [Mesh.emissions]
    clear hnone
    generalize ((mesh.nodes a).flooder.due now).1.take sends = ps at hpacks hwait
    induction hpacks with
    | nil => simp
    | @cons p b ps bs hpb _ ih =>
      have hdata := Packet.fromBytes_toBytes (hwait p List.mem_cons_self) hpb
      have hrelay : relayOf? x ⟨a, b, mesh.causeOf a b⟩ =
          if a = x then mesh.took a p.key else none := by
        simp only [relayOf?, causeOf, hdata]
      rw [List.map_cons, List.filterMap_cons, hrelay,
        ih fun q hq => hwait q (List.mem_cons_of_mem _ hq)]
      split_ifs with hx
      · rw [List.filterMap_cons]
      · rfl
  | announce _ => exact hnone (by simp)
  | quiet hrelay _ =>
    rw [hnone hrelay]
    cases op <;> first
      | rfl
      | exact absurd rfl (hrelay _ _)

/-- A relay that an operation leaves waiting is not among those that it sends. -/
theorem Causal.not_mem_emissions (h : mesh.Causal) {a x : ι} {op : Node.Op} {f : Flooder}
    {bs : List Bytes} (ht : Node.Transmits (mesh.nodes a) op f bs) {k : Key} {p : Pending} {j : ℕ}
    (hp : f.pending.get? k = some p) (hj : mesh.took a k = some j) :
    j ∉ (mesh.emissions a op bs).filterMap (relayOf? x) := by
  rw [h.relayedBy_emissions ht]
  cases ht with
  | relay _ =>
    dsimp only
    split_ifs
    · intro hmem
      rw [Flooder.get?_pending_due] at hp
      obtain ⟨hp, hlate⟩ := Option.filter_eq_some_iff.mp hp
      obtain ⟨k', p', hp', hdue, hj'⟩ := h.mem_took_due hmem
      obtain rfl := h.took_injective hp hj hp' hj'
      obtain rfl := Option.some.inj (hp.symm.trans hp')
      exact of_decide_eq_true hlate hdue
    · exact List.not_mem_nil
  | announce _ => exact List.not_mem_nil
  | quiet hrelay _ =>
    cases op <;> first
      | exact List.not_mem_nil
      | exact absurd rfl (hrelay _ _)

theorem Once.act (h : mesh.Once) {a : ι} {op : Node.Op} {n : Node} {es : List Event}
    (hop : op.isFrame = false) (hn : (mesh.nodes a).step c op = some (n, es))
    (hcausal : (mesh.acted a op n es).Causal) : (mesh.acted a op n es).Once := by
  have ht := Node.transmits_step hop hn
  have hlt {i : ℕ} {b : ι} (hi : (i, b) ∈ mesh.got) : i < mesh.air.length := by
    obtain ⟨e, he, -⟩ := h.got i b hi
    exact (List.getElem?_eq_some_iff.mp he).1
  refine ⟨hcausal, fun j b hj => ?_, fun x => ?_, fun x k p j hp hj => ?_⟩
  · obtain ⟨e, he, hne⟩ := h.got j b hj
    exact ⟨e, by rw [air_acted, List.getElem?_append_left (hlt hj), he], hne⟩
  · rw [relayedBy_append air_acted]
    have hemit := h.causal.relayedBy_emissions ht x
    cases op with
    | relay now sends =>
      dsimp only at hemit
      split_ifs at hemit with hx
      · subst hx
        rw [hemit]
        refine (h.nodup a).append (h.causal.nodup_took_due a now sends) fun j hold hnew => ?_
        obtain ⟨k, p, hp, -, hj⟩ := h.causal.mem_took_due hnew
        exact h.unspent a k p j hp hj hold
      · rw [hemit, List.append_nil]
        exact h.nodup x
    | _ =>
      rw [hemit, List.append_nil]
      exact h.nodup x
  · rw [relayedBy_append air_acted, List.mem_append, not_or]
    by_cases hx : x = a
    · subst hx
      rw [nodes_acted_self] at hp
      exact ⟨h.unspent x k p j (ht.pending_of_pending hp) hj, h.causal.not_mem_emissions ht hp hj⟩
    · rw [nodes_acted_of_ne hx] at hp
      refine ⟨h.unspent x k p j hp hj, fun hnew => ?_⟩
      obtain ⟨e, he, hej⟩ := List.mem_filterMap.mp hnew
      obtain ⟨b, -, rfl⟩ := List.mem_map.mp he
      simp [relayOf?, Ne.symm hx] at hej

theorem Once.step (h : mesh.Once) {op : Op ι} {es : List Event} (honce : mesh.OncePerNode op)
    (hx : mesh.step c mac op = some (mesh', es)) : mesh'.Once := by
  have hcausal := h.causal.step hx
  cases step_cases hx with
  | deliver e n es he hn => exact h.deliver he hn honce hcausal
  | @originate a pkt b _ _ =>
    have hsame (x : ι) : (mesh.originated a b).relayedBy x = mesh.relayedBy x := by
      rw [relayedBy_append air_originated]
      simp [relayOf?]
    refine ⟨hcausal, fun j x hj => ?_, fun x => ?_, fun x k p j hp hj => ?_⟩
    · obtain ⟨e, he, hne⟩ := h.got j x hj
      exact ⟨e, (extends_step hx).getElem? he, hne⟩
    · rw [hsame]
      exact h.nodup x
    · rw [hsame]
      exact h.unspent x k p j hp hj
  | act n es hop hn => exact h.act hop hn hcausal

theorem Once.exec (h : mesh.Once) {ops : List (Op ι)} {ess : List (List Event)}
    (hx : Machine.exec (guarded OncePerNode (Mesh.step c mac)) mesh ops = some (mesh', ess)) :
    mesh'.Once :=
  exec_guarded_invariant (fun h hG hx => Once.step h hG hx) h hx

/-! ### Counting -/

/-- A node has relayed a transmission once at most. -/
theorem Once.place_unique (h : mesh.Once) {i i' j : ℕ} {e e' : Emission ι}
    (he : mesh.air[i]? = some e) (he' : mesh.air[i']? = some e') (hj : e.cause = some j)
    (hj' : e'.cause = some j) (hsender : e.sender = e'.sender) : i = i' := by
  have hne {k k' : ℕ} {x y : Emission ι} (hlt : k < k') (hx : mesh.air[k]? = some x)
      (hy : mesh.air[k']? = some y) (hxj : x.cause = some j) (hyj : y.cause = some j)
      (hxy : x.sender = y.sender) : False := by
    have hpair := List.pairwise_filterMap.mp (h.nodup x.sender)
    obtain ⟨hk, rfl⟩ := List.getElem?_eq_some_iff.mp hx
    obtain ⟨hk', rfl⟩ := List.getElem?_eq_some_iff.mp hy
    exact List.pairwise_iff_getElem.mp hpair k k' hk hk' hlt j (by rw [relayOf?, if_pos rfl, hxj]) j
      (by rw [relayOf?, if_pos hxy.symm, hyj]) rfl
  rcases lt_trichotomy i i' with hlt | rfl | hlt
  · exact (hne hlt he he' hj hj' hsender).elim
  · rfl
  · exact (hne hlt he' he hj' hj hsender.symm).elim

/-- Who relays a transmission of a flood: neither its sender nor the origin of the flood. -/
theorem Once.relayer_ne (h : mesh.Once) {o i j d : ℕ} {e e₀ e₁ : Emission ι}
    (hd : mesh.Descends o j d) (h₀ : mesh.air[o]? = some e₀) (h₁ : mesh.air[j]? = some e₁)
    (he : mesh.air[i]? = some e) (hj : e.cause = some j) :
    e.sender ≠ e₀.sender ∧ e.sender ≠ e₁.sender := by
  obtain ⟨q, -, hcaused⟩ := h.causal.air i e he
  cases hcaused with
  | original hnone _ => cases hj.symm.trans hnone
  | relay j' hj' _ hs =>
    obtain rfl := Option.some.inj (hj.symm.trans hj')
    constructor
    · intro hsame
      obtain ⟨e₀', p₀, h₀', hp₀, -, horig⟩ := h.causal.original hd
      obtain rfl := Option.some.inj (h₀.symm.trans h₀')
      obtain ⟨p, ho, hp, -⟩ := h.causal.carries hd
      obtain rfl : p₀ = p := Carries.unique ⟨e₀, h₀, hp₀⟩ ho
      obtain ⟨p', hp', hr⟩ := hs.relayed
      obtain rfl := hp.unique hp'
      obtain ⟨-, rfl⟩ := Packet.relayed_eq_some_iff.mp hr
      exact hs.foreign (hsame ▸ horig.1)
    · intro hsame
      obtain ⟨e₂, h₂, hne⟩ := h.got j e.sender hs.got
      obtain rfl := Option.some.inj (h₁.symm.trans h₂)
      exact hne hsame.symm

section Count

variable [Fintype ι]

/-- The others than the origin relay an original, and the others than both relay a relay. -/
theorem Once.card_children_le (h : mesh.Once) {o d j : ℕ} (hj : j ∈ mesh.generation o d) :
    ((mesh.generation o (d + 1)).filter fun i =>
      (mesh.air[i]?).bind Emission.cause = some j).card ≤
        if d = 0 then Fintype.card ι - 1 else Fintype.card ι - 2 := by
  have hd := mem_generation.mp hj
  obtain ⟨e₀, -, h₀, -⟩ := h.causal.original hd
  have hone : ∃ e₁, mesh.air[j]? = some e₁ := ⟨_, List.getElem?_eq_getElem hd.lt⟩
  obtain ⟨e₁, h₁⟩ := hone
  have hrelays : ((mesh.generation o (d + 1)).filter fun i =>
      (mesh.air[i]?).bind Emission.cause = some j).card ≤
        ((Finset.univ.erase e₀.sender).erase e₁.sender).card := by
    have hair {i : ℕ} (hi : i ∈ (mesh.generation o (d + 1)).filter fun i =>
        (mesh.air[i]?).bind Emission.cause = some j) :
        ∃ e, mesh.air[i]? = some e ∧ e.cause = some j :=
      Option.bind_eq_some_iff.mp (Finset.mem_filter.mp hi).2
    refine Finset.card_le_card_of_injOn
      (fun i => ((mesh.air[i]?).map Emission.sender).getD e₀.sender) (fun i hi => ?_)
      fun i hi i' hi' hsame => ?_
    · obtain ⟨e, he, hcause⟩ := hair hi
      obtain ⟨hne₀, hne₁⟩ := h.relayer_ne hd h₀ h₁ he hcause
      simp only [he, Option.map_some, Option.getD_some]
      simp [hne₀, hne₁]
    · obtain ⟨e, he, hcause⟩ := hair hi
      obtain ⟨e', he', hcause'⟩ := hair hi'
      simp only [he, he', Option.map_some, Option.getD_some] at hsame
      exact h.place_unique he he' hcause hcause' hsame
  refine hrelays.trans ?_
  have herase := Finset.card_erase_of_mem (Finset.mem_univ e₀.sender)
  rw [Finset.card_univ] at herase
  split_ifs with hzero
  · rw [← herase]
    exact Finset.card_le_card (Finset.erase_subset _ _)
  · have hforeign : e₁.sender ≠ e₀.sender := by
      cases hd with
      | origin _ _ => exact absurd rfl hzero
      | @relay _ j' d' e he hcause hd' =>
        obtain rfl := Option.some.inj (h₁.symm.trans he)
        have hsome : ∃ e₂, mesh.air[j']? = some e₂ := ⟨_, List.getElem?_eq_getElem hd'.lt⟩
        obtain ⟨e₂, h₂⟩ := hsome
        exact (h.relayer_ne hd' h₀ h₂ he hcause).1
    rw [Finset.card_erase_of_mem (by simp [hforeign]), herase]
    omega

theorem Once.card_generation_le (h : mesh.Once) (o d : ℕ) : (mesh.generation o d).card ≤
    ∏ k ∈ Finset.range d, if k = 0 then Fintype.card ι - 1 else Fintype.card ι - 2 := by
  have hparent (d i : ℕ) (hi : i ∈ mesh.generation o (d + 1)) :
      ∃ j ∈ mesh.generation o d, (mesh.air[i]?).bind Emission.cause = some j := by
    cases mem_generation.mp hi with
    | @relay _ j _ e he hcause hd =>
      exact ⟨j, mem_generation.mpr hd, Option.bind_eq_some_iff.mpr ⟨e, he, hcause⟩⟩
  have hprod := Generations.card_le_prod hparent (fun d j hj => h.card_children_le hj) d
  refine hprod.trans ((Nat.mul_le_mul_right _ (card_generation_zero_le o)).trans ?_)
  rw [one_mul]

/-- All transmissions of one flood. -/
theorem Once.ncard_flood_le (h : mesh.Once) {o : ℕ} {p : Packet} (hp : mesh.Carries o p) :
    {i | ∃ d, mesh.Descends o i d}.ncard ≤ floodBound (Fintype.card ι) p.hopLimit.toNat := by
  rw [floodBound, ← Generations.sum_prod_eq]
  refine Generations.ncard_le_sum (fun i hi => ?_) (h.card_generation_le o)
  obtain ⟨d, hd⟩ := hi
  obtain ⟨p', hp', -, hle⟩ := h.causal.carries hd
  obtain rfl := hp.unique hp'
  exact ⟨d, by omega, mem_generation.mpr hd⟩

theorem floodBound_mono (n : ℕ) : Monotone (floodBound n) := by
  intro h h' hle
  refine Nat.add_le_add_left (Nat.mul_le_mul_left _ ?_) 1
  exact Finset.sum_le_sum_of_subset (Finset.range_mono hle)

/-- The transmissions of all floods together. -/
theorem Once.length_air_le (h : mesh.Once) {H : ℤ} (hH : ∀ (o : ℕ) (e : Emission ι) (p : Packet),
    mesh.air[o]? = some e → e.cause = none → Packet.fromBytes e.data = .ok p → p.hopLimit ≤ H) :
    mesh.air.length ≤ (mesh.air.countP fun e => e.cause.isNone) *
      floodBound (Fintype.card ι) H.toNat := by
  classical
  let flood (o : ℕ) : Finset ℕ :=
    (Finset.range mesh.air.length).filter fun i => ∃ d, mesh.Descends o i d
  have hcover : Finset.range mesh.air.length ⊆
      (mesh.air.positions fun e => e.cause.isNone).biUnion flood := by
    intro i hi
    obtain ⟨o, d, hd⟩ := h.causal.exists_descends
      (List.getElem?_eq_getElem (Finset.mem_range.mp hi))
    obtain ⟨e, -, he, -, hnone, -⟩ := h.causal.original hd
    refine Finset.mem_biUnion.mpr ⟨o, ?_, Finset.mem_filter.mpr ⟨hi, d, hd⟩⟩
    exact List.mem_positions.mpr ⟨e, he, Option.isNone_iff_eq_none.mpr hnone⟩
  have hflood (o : ℕ) (ho : o ∈ mesh.air.positions fun e => e.cause.isNone) :
      (flood o).card ≤ floodBound (Fintype.card ι) H.toNat := by
    obtain ⟨e, he, hnone⟩ := List.mem_positions.mp ho
    obtain ⟨p, hp, -⟩ := h.causal.air o e he
    have hle := hH o e p he (Option.isNone_iff_eq_none.mp hnone) hp
    have hset : ((flood o : Finset ℕ) : Set ℕ) = {i | ∃ d, mesh.Descends o i d} := by
      ext i
      simp only [flood, Finset.coe_filter, Finset.mem_range, Set.mem_ofPred_eq,
        and_iff_right_iff_imp]
      rintro ⟨d, hd⟩
      exact hd.lt
    rw [← Set.ncard_coe_finset, hset]
    exact (h.ncard_flood_le ⟨e, he, hp⟩).trans (floodBound_mono _ (Int.toNat_le_toNat hle))
  calc mesh.air.length = (Finset.range mesh.air.length).card := (Finset.card_range _).symm
    _ ≤ ((mesh.air.positions fun e => e.cause.isNone).biUnion flood).card :=
        Finset.card_le_card hcover
    _ ≤ (mesh.air.positions fun e => e.cause.isNone).card * floodBound (Fintype.card ι) H.toNat :=
        Finset.card_biUnion_le_card_mul _ _ _ hflood
    _ = _ := by rw [List.card_positions]

end Count

/-! ### Where no cache forgets -/

/-- What a node has transmitted of a key it has originated or relayed. -/
theorem count_senders (mesh : Mesh ι) (k : Key) (a : ι) : (mesh.senders k).count a =
    (mesh.air.countP fun e => decide (e.cause = none ∧ e.key? = some k ∧ e.sender = a)) +
      (mesh.relayers k).count a := by
  rw [senders, relayers]
  induction mesh.air with
  | nil => rfl
  | cons e air ih =>
    rw [List.filter_cons, List.countP_cons, List.filterMap_cons, Emission.relayer?]
    by_cases hk : e.key? = some k <;> by_cases hs : e.sender = a <;> cases hc : e.cause <;>
      simp [hk, hs, ih] <;> omega

/-- The owner of a packet sends it once, and each of the others at most once. -/
theorem Ledger.nodup_senders (h : mesh.Ledger) (k : Key) : (mesh.senders k).Nodup := by
  refine List.nodup_iff_count_le_one.mpr fun a => ?_
  rw [count_senders]
  by_cases hk : k.1 = (mesh.nodes a).identity.nodeId
  · rw [List.count_eq_zero_of_not_mem (h.causal.not_mem_relayers hk), Nat.add_zero]
    refine le_trans (List.countP_mono_left fun e _ he => ?_) (h.originals_le k)
    obtain ⟨hnone, hkey, -⟩ := of_decide_eq_true he
    exact decide_eq_true ⟨hnone, hkey⟩
  · have hzero : (mesh.air.countP fun e =>
        decide (e.cause = none ∧ e.key? = some k ∧ e.sender = a)) = 0 := by
      refine List.countP_eq_zero.mpr fun e he horig => hk ?_
      obtain ⟨hnone, hkey, rfl⟩ := of_decide_eq_true horig
      obtain ⟨i, hi⟩ := List.getElem?_of_mem he
      obtain ⟨q, hq, -⟩ := h.causal.air i e hi
      obtain rfl := Option.some.inj ((Emission.key?_eq hq).symm.trans hkey)
      exact (h.causal.owner hi hnone hq).symm
    rw [hzero, Nat.zero_add]
    exact List.nodup_iff_count_le_one.mp (h.nodup k) a

end Relays

end Mesh

variable {ι : Type} [DecidableEq ι] [Fintype ι]

/-- In every run of a finite mesh in which the radio hands each transmission to each other
node at most once, whatever the caches forget: a packet with the hop limit `h` is
transmitted at most `1 + (N - 1) * (1 + (N - 2) + ... + (N - 2) ^ (h - 1))` times. So with
hop limits up to `H`, all that is ever sent is at most so many times what was originated. -/
theorem floods_end (c : Crypto) (mac : ι → Mac) {mesh₀ mesh : Mesh ι} (h₀ : mesh₀.Fresh)
    {ops : List (Mesh.Op ι)} {ess : List (List Event)}
    (hx : exec (guarded Mesh.OncePerNode (Mesh.step c mac)) mesh₀ ops = some (mesh, ess)) :
    (∀ o p, mesh.Carries o p → {i | ∃ d, mesh.Descends o i d}.ncard ≤
      Mesh.floodBound (Fintype.card ι) p.hopLimit.toNat) ∧
    ∀ H : ℤ, (∀ (o : ℕ) (e : Emission ι) (p : Packet), mesh.air[o]? = some e →
      e.cause = none → Packet.fromBytes e.data = .ok p → p.hopLimit ≤ H) →
        mesh.air.length ≤ (mesh.air.countP fun e => e.cause.isNone) *
          Mesh.floodBound (Fintype.card ι) H.toNat := by
  have h := h₀.once.exec hx
  exact ⟨fun o p hp => h.ncard_flood_le hp, fun H hH => h.length_air_le hH⟩

theorem floods_end_line : ∃ mesh ess,
    exec (guarded Mesh.OncePerNode (Mesh.step lineCrypto lineMac)) lineMesh lineRelay =
      some (mesh, ess) ∧ mesh.air.length = 2 ∧
    ∀ o p, mesh.Carries o p → {i | ∃ d, mesh.Descends o i d}.ncard ≤
      Mesh.floodBound (Fintype.card (Fin 3)) p.hopLimit.toNat := by
  have hrun : (exec (guarded Mesh.OncePerNode (Mesh.step lineCrypto lineMac)) lineMesh
      lineRelay).map (fun r => r.1.air.length) = some 2 := by
    decide +kernel
  obtain ⟨⟨mesh, ess⟩, hx, hlength⟩ := Option.map_eq_some_iff.mp hrun
  exact ⟨mesh, ess, hx, hlength, (floods_end lineCrypto lineMac fresh_lineMesh hx).1⟩

/-- In every gentle run no node transmits a packet twice, whatever the thresholds, the
delays and the topology; so in a finite mesh a flood costs at most one transmission of
each node. -/
theorem one_transmission_each (c : Crypto) (mac : ι → Mac) {mesh₀ mesh : Mesh ι}
    (h₀ : mesh₀.Fresh)
    (hsize : ∀ a, (mesh₀.nodes a).flooder.seen.d.size ≤ (mesh₀.nodes a).flooder.seen.capacity)
    {ops : List (Mesh.Op ι)} {ess : List (List Event)}
    (hx : exec (guarded (Mesh.Gentle mac) (Mesh.step c mac)) mesh₀ ops = some (mesh, ess))
    (k : Key) : (mesh.senders k).Nodup ∧ (mesh.senders k).length ≤ Fintype.card ι := by
  have hnodup := ((h₀.ledger hsize).exec hx).nodup_senders k
  exact ⟨hnodup, hnodup.length_le_card⟩

theorem one_transmission_each_line : ∃ mesh ess,
    exec (guarded (Mesh.Gentle lineMac) (Mesh.step lineCrypto lineMac)) lineMesh lineRelay =
      some (mesh, ess) ∧ mesh.senders (sampleAnnounce 3).key = [0, 1] ∧
    (mesh.senders (sampleAnnounce 3).key).Nodup := by
  have hrun : (exec (guarded (Mesh.Gentle lineMac) (Mesh.step lineCrypto lineMac)) lineMesh
      lineRelay).map (fun r => r.1.senders (sampleAnnounce 3).key) = some [0, 1] := by
    decide +kernel
  obtain ⟨⟨mesh, ess⟩, hx, hsenders⟩ := Option.map_eq_some_iff.mp hrun
  have hsize (a : Fin 3) : (lineMesh.nodes a).flooder.seen.d.size ≤
      (lineMesh.nodes a).flooder.seen.capacity := Nat.zero_le _
  exact ⟨mesh, ess, hx, hsenders,
    (one_transmission_each lineCrypto lineMac fresh_lineMesh hsize hx _).1⟩

end Beachedmesh
