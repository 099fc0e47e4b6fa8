import Beachedmesh.Sightings

/-!
# One packet more

Two runs of a flooder over the same operations, the second after one packet more of
another kind. The runs part in two ways only. The packet more takes the place of the
first one of its key, or it is the copy more that cancels a relay.
-/
namespace Beachedmesh
namespace Flooder

variable {own : NodeId} {capacity : ℕ} {ttl : ℚ} {f f' : Flooder}

/-! ### Two flooders that differ at one key -/

structure Alike (k : Key) (f f' : Flooder) : Prop where
  threshold_eq : f'.threshold = f.threshold
  seen : ∀ j, j ≠ k → (j ∈ f'.seen.d.keys ↔ j ∈ f.seen.d.keys)
  pending : f'.pending.erase k = f.pending.erase k

variable {k : Key} {good : PacketKind}

theorem Alike.get? (h : Alike k f f') {j : Key} (hj : j ≠ k) :
    f'.pending.get? j = f.pending.get? j := by
  have he := congrArg (fun d => d.get? j) h.pending
  simpa [hj] using he

theorem Alike.slot (h : Alike k f f') {pkt : Packet} (hne : pkt.key ≠ k) (sendAt : ℚ) :
    f'.slot pkt sendAt = f.slot pkt sendAt := by
  unfold Flooder.slot
  rw [h.get? hne, h.threshold_eq]
  simp only [h.seen _ hne]

/-- An operation keeps the two alike. -/
theorem Alike.after (h : Alike k f f') (ht : f.Tracked own capacity ttl)
    (ht' : f'.Tracked own capacity ttl) {op : FloodOp} (hfit : f.Fits op) (hfit' : f'.Fits op) :
    Alike k (f.after own op) (f'.after own op) := by
  refine ⟨by rw [threshold_after, threshold_after, h.threshold_eq], ?_, ?_⟩
  · intro j hj
    cases op with
    | receive pkt rssi clk draw =>
      by_cases hsrc : pkt.src = own
      · rw [ht.after_own hsrc, ht'.after_own hsrc]
        exact h.seen j hj
      · rw [(ht.took hfit hsrc).seen, (ht'.took hfit' hsrc).seen, h.seen j hj]
    | due now => exact h.seen j hj
    | announce packetId now =>
      show j ∈ (f'.seen.add _ now).d.keys ↔ j ∈ (f.seen.add _ now).d.keys
      rw [SeenCache.mem_keys_add_of_lt hfit, SeenCache.mem_keys_add_of_lt hfit', h.seen j hj]
  · cases op with
    | receive pkt rssi clk draw =>
      by_cases hsrc : pkt.src = own
      · rw [ht.after_own hsrc, ht'.after_own hsrc]
        exact h.pending
      rw [(ht.took hfit hsrc).pending, (ht'.took hfit' hsrc).pending]
      by_cases hkey : pkt.key = k
      · rw [hkey, OrderedDict.erase_put_self, OrderedDict.erase_put_self, h.pending]
      · rw [OrderedDict.erase_put_of_ne _ hkey, OrderedDict.erase_put_of_ne _ hkey, h.pending,
          h.slot hkey]
    | due now =>
      show (f'.pending.filter _).erase k = (f.pending.filter _).erase k
      rw [OrderedDict.erase_filter, OrderedDict.erase_filter, h.pending]
    | announce packetId now => exact h.pending

/-- What is received under other keys is taken up in both or in neither. -/
theorem Alike.sight_receive (h : Alike k f f') (good : PacketKind)
    (ht : f.Tracked own capacity ttl) (ht' : f'.Tracked own capacity ttl) {pkt : Packet}
    {rssi : Option ℤ} {clk : ReceiveClock} {draw : ℚ} (hfit : f.Fits (.receive pkt rssi clk draw))
    (hfit' : f'.Fits (.receive pkt rssi clk draw)) (hne : pkt.key ≠ k) :
    f'.sight good (.receive pkt rssi clk draw) = f.sight good (.receive pkt rssi clk draw) := by
  by_cases hsrc : pkt.src = own
  · rw [ht.sight_own hsrc, ht'.sight_own hsrc]
  · rw [ht.sight_receive hfit hsrc, ht'.sight_receive hfit' hsrc]
    simp only [h.seen _ hne]

/-- Relays of another kind under `k` do not show when a timer fires. -/
theorem sight_due_erase (hslot : ∀ p, f.pending.get? k = some p → good.holds p.packet = false)
    (now : ℚ) : f.sight good (.due now) =
      { f with pending := f.pending.erase k }.sight good (.due now) := by
  simp only [sight, due, List.filter_map, OrderedDict.erase, OrderedDict.filter,
    List.filter_filter]
  refine congrArg (List.map _) (List.filter_congr fun e he => ?_)
  by_cases hk : e.1 = k
  · have hbad := hslot e.2 (OrderedDict.get?_eq_some_iff.mpr (hk ▸ he))
    simp [hk, hbad]
  · simp [hk]

/-! ### Nothing of the kind under the key -/

/-- The key is taken in the second flooder, and neither has a relay of the kind under it. -/
structure Muted (good : PacketKind) (k : Key) (f f' : Flooder) : Prop extends Alike k f f' where
  slot : ∀ p, f.pending.get? k = some p → good.holds p.packet = false
  slot' : ∀ p, f'.pending.get? k = some p → good.holds p.packet = false
  taken : k ∈ f'.seen.d.keys

/-- The first packet of `k` to arrive is of the kind. -/
def Shadows (good : PacketKind) (k : Key) : List FloodOp → Prop
  | [] => False
  | .receive pkt _ _ _ :: ops =>
    if pkt.key = k then good.holds pkt = true else Shadows good k ops
  | .due _ :: ops => Shadows good k ops
  | .announce _ _ :: ops => Shadows good k ops

/-- The operation is the first packet of `k`, and of the kind. -/
def TakesUp (good : PacketKind) (k : Key) (f : Flooder) : FloodOp → Prop
  | .receive pkt _ _ _ => pkt.key = k ∧ k ∉ f.seen.d.keys ∧ good.holds pkt = true
  | _ => False

/-- A slot that is not of the kind stays so, unless the packet is the first and of the kind. -/
theorem slot_bad (hbad : ∀ p, f.pending.get? k = some p → good.holds p.packet = false)
    {pkt : Packet} (hkey : pkt.key = k) (hnew : k ∉ f.seen.d.keys → good.holds pkt = false)
    {sendAt : ℚ} {q : Pending} (hq : f.slot pkt sendAt = some q) :
    good.holds q.packet = false := by
  subst hkey
  rcases slot_cases good hq with ⟨p, hp, hc⟩ | ⟨-, hk, -, hgood⟩
  · obtain ⟨-, rfl⟩ := Pending.counted_eq_some hc
    exact hbad p hp
  · rw [hgood]
    exact hnew hk

theorem Muted.after (h : Muted good k f f') (hk : k.1 ≠ own) (ht : f.Tracked own capacity ttl)
    (ht' : f'.Tracked own capacity ttl) {op : FloodOp} (hfit : f.Fits op) (hfit' : f'.Fits op)
    (hop : ¬ f.TakesUp good k op) :
    Muted good k (f.after own op) (f'.after own op) ∧ f'.sight good op = f.sight good op := by
  have halike := h.toAlike.after ht ht' hfit hfit'
  have htaken := (ht'.seen_after hfit' hk).mpr (Or.inl h.taken)
  cases op with
  | receive pkt rssi clk draw =>
    by_cases hkey : pkt.key = k
    · have hsrc : pkt.src ≠ own := fun he => hk (hkey ▸ he)
      have hnew : k ∉ f.seen.d.keys → good.holds pkt = false := fun hn =>
        Bool.eq_false_iff.mpr fun hg => hop ⟨hkey, hn, hg⟩
      have hslot {g : Flooder} (hg : g.Tracked own capacity ttl)
          (hgfit : g.Fits (.receive pkt rssi clk draw))
          (hbad : ∀ p, g.pending.get? k = some p → good.holds p.packet = false)
          (hgnew : k ∉ g.seen.d.keys → good.holds pkt = false) :
          ∀ p, (g.after own (.receive pkt rssi clk draw)).pending.get? k = some p →
            good.holds p.packet = false := by
        intro p hp
        rw [(hg.took hgfit hsrc).pending, OrderedDict.get?_put, if_pos hkey.symm] at hp
        exact slot_bad hbad hkey hgnew hp
      refine ⟨⟨halike, hslot ht hfit h.slot hnew,
        hslot ht' hfit' h.slot' fun hn => absurd h.taken hn, htaken⟩, ?_⟩
      rw [ht.sight_receive hfit hsrc, ht'.sight_receive hfit' hsrc, hkey,
        if_neg fun hc => hc.1 h.taken, if_neg fun hc => hop ⟨hkey, hc⟩]
    · have hsame {g : Flooder} (hg : g.Tracked own capacity ttl)
          (hgfit : g.Fits (.receive pkt rssi clk draw)) :
          (g.after own (.receive pkt rssi clk draw)).pending.get? k = g.pending.get? k := by
        by_cases hsrc : pkt.src = own
        · rw [hg.after_own hsrc]
        · rw [(hg.took hgfit hsrc).pending, OrderedDict.get?_put, if_neg (Ne.symm hkey)]
      exact ⟨⟨halike, by rw [hsame ht hfit]; exact h.slot, by rw [hsame ht' hfit']; exact h.slot',
        htaken⟩, h.toAlike.sight_receive good ht ht' hfit hfit' hkey⟩
  | due now =>
    have hsub {g : Flooder} {p : Pending}
        (hp : (g.after own (.due now)).pending.get? k = some p) : g.pending.get? k = some p := by
      rw [Flooder.after, get?_pending_due] at hp
      exact (Option.filter_eq_some_iff.mp hp).1
    refine ⟨⟨halike, fun p hp => h.slot p (hsub hp), fun p hp => h.slot' p (hsub hp), htaken⟩, ?_⟩
    rw [sight_due_erase h.slot, sight_due_erase h.slot']
    simp only [sight, due, h.pending]
  | announce packetId now => exact ⟨⟨halike, h.slot, h.slot', htaken⟩, rfl⟩

/-- From there on the runs show the same, unless the second has taken the place of the
first packet of the kind. -/
theorem muted_sights_iff (h : Muted good k f f') (hk : k.1 ≠ own)
    (ht : f.Tracked own capacity ttl) (ht' : f'.Tracked own capacity ttl) {ops : List FloodOp}
    (hfit : FitsRun own f ops) (hfit' : FitsRun own f' ops) :
    sights good own f' ops = sights good own f ops ↔
      k ∈ f.seen.d.keys ∨ ¬ Shadows good k ops := by
  induction ops generalizing f f' with
  | nil => simp [sights, Shadows]
  | cons op ops ih =>
    rw [sights, sights, List.cons.injEq]
    by_cases hop : f.TakesUp good k op
    · cases op with
      | receive pkt rssi clk draw =>
        obtain ⟨hkey, hnew, hgood⟩ := hop
        have hsrc : pkt.src ≠ own := fun he => hk (hkey ▸ he)
        rw [ht.sight_receive hfit.1 hsrc, ht'.sight_receive hfit'.1 hsrc, hkey,
          if_neg fun hc => hc.1 h.taken, if_pos ⟨hnew, hgood⟩]
        simp [hnew, Shadows, hkey, hgood]
      | due now => exact hop.elim
      | announce packetId now => exact hop.elim
    · obtain ⟨hnext, hsight⟩ := h.after hk ht ht' hfit.1 hfit'.1 hop
      rw [ih hnext (ht.after hfit.1) (ht'.after hfit'.1) hfit.2 hfit'.2, ht.seen_after hfit.1 hk]
      simp only [hsight, true_and]
      cases op with
      | receive pkt rssi clk draw =>
        simp only [FloodOp.key?, Option.some.injEq, Shadows]
        by_cases hkey : pkt.key = k
        · simp only [hkey, or_true, true_or, if_true, true_iff]
          by_contra hn
          rw [not_or, not_not] at hn
          exact hop ⟨hkey, hn.1, hn.2⟩
        · simp [hkey]
      | due now => simp [FloodOp.key?, Shadows]
      | announce packetId now =>
        have hne : ((own, packetId) : Key) ≠ k := fun he => hk (congrArg Prod.fst he).symm
        simp [FloodOp.key?, hne, Shadows]

/-! ### One copy ahead -/

/-- The second flooder has counted one copy more of the relay `p` under `k`. -/
structure Ahead (k : Key) (p : Pending) (f f' : Flooder) : Prop where
  threshold_eq : f'.threshold = f.threshold
  seen : ∀ j, j ∈ f'.seen.d.keys ↔ j ∈ f.seen.d.keys
  slot : f.pending.get? k = some p
  pending : f'.pending = f.pending.put k (p.counted f.threshold)

variable {p : Pending}

theorem Ahead.alike (h : Ahead k p f f') : Alike k f f' :=
  ⟨h.threshold_eq, fun j _ => h.seen j, by rw [h.pending, OrderedDict.erase_put_self]⟩

theorem Ahead.taken (h : Ahead k p f f') (ht : f.Tracked own capacity ttl) :
    k ∈ f.seen.d.keys :=
  ht.seen k (OrderedDict.mem_keys_iff.mpr ⟨p, h.slot⟩)

/-- When the timer of a relay fires, the copy more is one too many. -/
def Misses (threshold : ℕ) (k : Key) (sendAt : ℚ) : ℕ → List FloodOp → Prop
  | _, [] => False
  | heard, .receive pkt _ _ _ :: ops =>
    Misses threshold k sendAt (if pkt.key = k then heard + 1 else heard) ops
  | heard, .due now :: ops =>
    if sendAt ≤ now then threshold = heard + 1 else Misses threshold k sendAt heard ops
  | heard, .announce _ _ :: ops => Misses threshold k sendAt heard ops

theorem not_misses {threshold : ℕ} {sendAt : ℚ} {heard : ℕ} (h : threshold ≤ heard)
    (ops : List FloodOp) : ¬ Misses threshold k sendAt heard ops := by
  induction ops generalizing heard with
  | nil => exact id
  | cons op ops ih =>
    cases op with
    | receive pkt rssi clk draw =>
      unfold Misses
      split_ifs
      · exact ih (h.trans (Nat.le_succ heard))
      · exact ih h
    | due now =>
      unfold Misses
      split_ifs
      · omega
      · exact ih h
    | announce packetId now => exact ih h

/-- A packet under another key leaves the second flooder one copy ahead. -/
theorem Ahead.receive_other (h : Ahead k p f f') (ht : f.Tracked own capacity ttl)
    (ht' : f'.Tracked own capacity ttl) {pkt : Packet} {rssi : Option ℤ} {clk : ReceiveClock}
    {draw : ℚ} (hfit : f.Fits (.receive pkt rssi clk draw))
    (hfit' : f'.Fits (.receive pkt rssi clk draw)) (hne : pkt.key ≠ k) :
    Ahead k p (f.after own (.receive pkt rssi clk draw))
      (f'.after own (.receive pkt rssi clk draw)) := by
  by_cases hsrc : pkt.src = own
  · rwa [ht.after_own hsrc, ht'.after_own hsrc]
  have hmem : k ∈ f.pending.keys := OrderedDict.mem_keys_iff.mpr ⟨p, h.slot⟩
  refine ⟨by rw [threshold_after, threshold_after, h.threshold_eq], fun j => ?_, ?_, ?_⟩
  · rw [(ht.took hfit hsrc).seen, (ht'.took hfit' hsrc).seen, h.seen j]
  · rw [(ht.took hfit hsrc).pending, OrderedDict.get?_put, if_neg (Ne.symm hne), h.slot]
  · rw [(ht.took hfit hsrc).pending, (ht'.took hfit' hsrc).pending, h.alike.slot hne,
      h.pending, threshold_after, OrderedDict.put_comm_of_mem hmem hne]

/-- A copy is counted by both, and may be the last one that is needed. -/
theorem Ahead.receive_self (h : Ahead k p f f') (good : PacketKind) (hk : k.1 ≠ own)
    (ht : f.Tracked own capacity ttl) (ht' : f'.Tracked own capacity ttl) {pkt : Packet}
    {rssi : Option ℤ} {clk : ReceiveClock} {draw : ℚ}
    (hfit : f.Fits (.receive pkt rssi clk draw))
    (hfit' : f'.Fits (.receive pkt rssi clk draw)) (hkey : pkt.key = k) :
    Ahead k { p with heard := p.heard + 1 } (f.after own (.receive pkt rssi clk draw))
        (f'.after own (.receive pkt rssi clk draw)) ∨
      f.threshold ≤ p.heard + 1 ∧ Muted good k (f.after own (.receive pkt rssi clk draw))
        (f'.after own (.receive pkt rssi clk draw)) := by
  have hsrc : pkt.src ≠ own := fun he => hk (hkey ▸ he)
  set sendAt := clk.schedule + relayDelay rssi draw with hsend
  have hpend := (ht.took hfit hsrc).pending
  have hpend' := (ht'.took hfit' hsrc).pending
  rw [← hsend, hkey] at hpend hpend'
  have hslot : f.slot pkt sendAt = p.counted f.threshold := by
    simp only [Flooder.slot, hkey, h.slot]
  have hget' : f'.pending.get? k = p.counted f.threshold := by
    rw [h.pending, OrderedDict.get?_put, if_pos rfl]
  have halike := h.alike.after ht ht' hfit hfit'
  cases hc : p.counted f.threshold with
  | some q =>
    obtain ⟨-, rfl⟩ := Pending.counted_eq_some hc
    have hslot' : f'.slot pkt sendAt =
        Pending.counted f.threshold { p with heard := p.heard + 1 } := by
      simp only [Flooder.slot, hkey, hget', hc, h.threshold_eq]
    refine Or.inl ⟨halike.threshold_eq, fun j => ?_, ?_, ?_⟩
    · rw [(ht.took hfit hsrc).seen, (ht'.took hfit' hsrc).seen, h.seen j]
    · rw [hpend, hslot, hc, OrderedDict.get?_put, if_pos rfl]
    · rw [hpend', hpend, hslot, hslot', threshold_after, h.pending, hc]
  | none =>
    have hslot' : f'.slot pkt sendAt = none := by
      simp only [Flooder.slot, hkey, hget', hc, if_pos ((h.seen k).mpr (h.taken ht))]
    refine Or.inr ⟨Pending.counted_eq_none hc, halike, fun q hq => ?_, fun q hq => ?_, ?_⟩
    · rw [hpend, hslot, hc, OrderedDict.get?_put, if_pos rfl] at hq
      cases hq
    · rw [hpend', hslot', OrderedDict.get?_put, if_pos rfl] at hq
      cases hq
    · exact (ht'.seen_after hfit' hk).mpr (Or.inl ((h.seen k).mpr (h.taken ht)))

/-- Before its timer fires, the relay is held back by both. -/
theorem Ahead.due_early (h : Ahead k p f f') (own : NodeId) (good : PacketKind) {now : ℚ}
    (hlate : ¬ p.sendAt ≤ now) :
    Ahead k p (f.after own (.due now)) (f'.after own (.due now)) ∧
      f'.sight good (.due now) = f.sight good (.due now) := by
  have hsame : ∀ q, p.counted f.threshold = some q →
      decide (q.sendAt ≤ now) = decide (p.sendAt ≤ now) := by
    intro q hq
    obtain ⟨-, rfl⟩ := Pending.counted_eq_some hq
    rfl
  have hkeep := OrderedDict.filter_put h.slot
    (p := fun e => decide (¬ e.2.sendAt ≤ now)) (s := p.counted f.threshold) (fun q hq => by
      rw [decide_not, decide_not, hsame q hq])
  have hready := OrderedDict.filter_put h.slot
    (p := fun e => decide (e.2.sendAt ≤ now)) hsame
  rw [if_pos (by simpa using hlate)] at hkeep
  rw [if_neg (by simpa using hlate)] at hready
  refine ⟨⟨h.threshold_eq, h.seen, ?_, ?_⟩, ?_⟩
  · rw [Flooder.after, get?_pending_due, h.slot, Option.filter_some, if_pos (by simpa using hlate)]
  · show f'.pending.filter _ = (f.pending.filter _).put k _
    rw [h.pending]
    exact hkeep
  · have hent : f'.pending.entries.filter (fun e => decide (e.2.sendAt ≤ now)) =
        f.pending.entries.filter (fun e => decide (e.2.sendAt ≤ now)) := by
      rw [h.pending]
      exact congrArg OrderedDict.entries hready
    simp only [sight, due, hent]

/-- When it fires, the first flooder hands the relay out; the second does so too, unless
the copy more was the last one that was needed. -/
theorem Ahead.due_fired (h : Ahead k p f f') (good : PacketKind)
    (ht : f.Tracked own capacity ttl) (ht' : f'.Tracked own capacity ttl)
    (hpos : 0 < f.threshold) {now : ℚ} (hnow : p.sendAt ≤ now) :
    Muted good k (f.after own (.due now)) (f'.after own (.due now)) ∧
      (f'.sight good (.due now) = f.sight good (.due now) ↔
        (good.holds p.packet = true → f.threshold ≠ p.heard + 1)) := by
  have hgone {g : Flooder} (hg : ∀ q, g.pending.get? k = some q → q.sendAt ≤ now) :
      ∀ q, (g.after own (.due now)).pending.get? k = some q → good.holds q.packet = false := by
    intro q hq
    rw [Flooder.after, get?_pending_due, Option.filter_eq_some_iff] at hq
    exact absurd (hg q hq.1) (by simpa using hq.2)
  have hget' : f'.pending.get? k = p.counted f.threshold := by
    rw [h.pending, OrderedDict.get?_put, if_pos rfl]
  have hsame : ∀ q, p.counted f.threshold = some q →
      decide (q.sendAt ≤ now) = decide (p.sendAt ≤ now) := by
    intro q hq
    obtain ⟨-, rfl⟩ := Pending.counted_eq_some hq
    rfl
  refine ⟨⟨h.alike.after ht ht' trivial trivial, hgone fun q hq => ?_, hgone fun q hq => ?_,
    (h.seen k).mpr (h.taken ht)⟩, ?_⟩
  · rwa [← Option.some.inj (h.slot.symm.trans hq)]
  · rw [hget'] at hq
    obtain ⟨-, rfl⟩ := Pending.counted_eq_some hq
    exact hnow
  have hlt := ht.heard_lt hpos k p h.slot
  cases hc : p.counted f.threshold with
  | some q =>
    obtain ⟨hmore, rfl⟩ := Pending.counted_eq_some hc
    refine iff_of_true ?_ fun _ => by omega
    -- both hand out the same packet, at the same place
    have hready := OrderedDict.filter_put h.slot
      (p := fun e => decide (e.2.sendAt ≤ now)) hsame
    rw [if_pos (by simpa using hnow), hc] at hready
    have hslot : (f.pending.filter fun e => decide (e.2.sendAt ≤ now)).get? k = some p := by
      rw [OrderedDict.get?_filter, h.slot, Option.filter_some, if_pos (by simpa using hnow)]
    have hmap := OrderedDict.map_insert hslot (w := { p with heard := p.heard + 1 })
      (f := fun e => e.2.packet) rfl
    have hent : f'.pending.entries.filter (fun e => decide (e.2.sendAt ≤ now)) =
        ((f.pending.filter fun e => decide (e.2.sendAt ≤ now)).insert k
          { p with heard := p.heard + 1 }).entries := by
      rw [h.pending, hc]
      exact congrArg OrderedDict.entries hready
    simp only [sight, due, hent, hmap]
    rfl
  | none =>
    have heq : f.threshold = p.heard + 1 := by
      have hle := Pending.counted_eq_none hc
      omega
    rw [hc] at hget'
    constructor
    · intro hsight hgood
      -- only `k` holds a relay of that key, and the second flooder has none under it
      have hin : p.packet ∈ f'.sight good (.due now) := by
        rw [hsight]
        exact List.mem_filter.mpr ⟨mem_due_iff.mpr ⟨k, p, h.slot, hnow, rfl⟩, hgood⟩
      obtain ⟨j, q, hq, -, hpq⟩ := mem_due_iff.mp (List.mem_filter.mp hin).1
      have hj : j = k := by
        rw [← ht'.key_eq j q hq, hpq]
        exact ht.key_eq k p h.slot
      rw [hj, hget'] at hq
      cases hq
    · intro hgood
      have hbad : good.holds p.packet = false :=
        Bool.eq_false_iff.mpr fun hg => hgood hg heq
      have herase : f'.pending = f.pending.erase k := by
        rw [h.pending, hc]
        rfl
      have hslot : ∀ q, f.pending.get? k = some q → good.holds q.packet = false := fun q hq =>
        Option.some.inj (h.slot.symm.trans hq) ▸ hbad
      rw [sight_due_erase hslot]
      simp only [sight, due, herase]

/-- From there on the runs show the same, unless the timer fires with that copy too many. -/
theorem ahead_sights_iff (h : Ahead k p f f') (hk : k.1 ≠ own)
    (ht : f.Tracked own capacity ttl) (ht' : f'.Tracked own capacity ttl)
    (hpos : 0 < f.threshold) {ops : List FloodOp} (hfit : FitsRun own f ops)
    (hfit' : FitsRun own f' ops) :
    sights good own f' ops = sights good own f ops ↔
      (good.holds p.packet = true → ¬ Misses f.threshold k p.sendAt p.heard ops) := by
  induction ops generalizing f f' p with
  | nil => simp [sights, Misses]
  | cons op ops ih =>
    have hnext := ht.after hfit.1
    have hnext' := ht'.after hfit'.1
    have hpos' : 0 < (f.after own op).threshold := (threshold_after f op).symm ▸ hpos
    have hmuted (hm : Muted good k (f.after own op) (f'.after own op)) :
        sights good own (f'.after own op) ops = sights good own (f.after own op) ops :=
      (muted_sights_iff hm hk hnext hnext' hfit.2 hfit'.2).mpr
        (Or.inl ((ht.seen_after hfit.1 hk).mpr (Or.inl (h.taken ht))))
    rw [sights, sights, List.cons.injEq]
    cases op with
    | receive pkt rssi clk draw =>
      by_cases hkey : pkt.key = k
      · have hsrc : pkt.src ≠ own := fun he => hk (hkey ▸ he)
        have hsight : f'.sight good (.receive pkt rssi clk draw) =
            f.sight good (.receive pkt rssi clk draw) := by
          rw [ht.sight_receive hfit.1 hsrc, ht'.sight_receive hfit'.1 hsrc]
          simp only [hkey, h.seen]
        simp only [hsight, true_and, Misses, if_pos hkey]
        rcases h.receive_self good hk ht ht' hfit.1 hfit'.1 hkey with
          hahead | ⟨hle, hm⟩
        · rw [ih hahead hnext hnext' hpos' hfit.2 hfit'.2, threshold_after]
        · exact iff_of_true (hmuted hm) fun _ => not_misses hle ops
      · have hsight := h.alike.sight_receive good ht ht' hfit.1 hfit'.1 hkey
        simp only [hsight, true_and, Misses, if_neg hkey]
        rw [ih (h.receive_other ht ht' hfit.1 hfit'.1 hkey) hnext hnext' hpos' hfit.2
          hfit'.2, threshold_after]
    | due now =>
      by_cases hnow : p.sendAt ≤ now
      · obtain ⟨hm, hsight⟩ := h.due_fired good ht ht' hpos hnow
        simp only [Misses, if_pos hnow, hsight, hmuted hm, and_true]
      · obtain ⟨hahead, hsight⟩ := h.due_early own good hnow
        simp only [hsight, true_and, Misses, if_neg hnow]
        rw [ih hahead hnext hnext' hpos' hfit.2 hfit'.2, threshold_after]
    | announce packetId now =>
      have hahead : Ahead k p (f.after own (.announce packetId now))
          (f'.after own (.announce packetId now)) := by
        refine ⟨h.threshold_eq, fun j => ?_, h.slot, h.pending⟩
        show j ∈ (f'.seen.add _ now).d.keys ↔ j ∈ (f.seen.add _ now).d.keys
        rw [SeenCache.mem_keys_add_of_lt hfit.1, SeenCache.mem_keys_add_of_lt hfit'.1, h.seen j]
      have hsight : f'.sight good (.announce packetId now) =
          f.sight good (.announce packetId now) := rfl
      simp only [hsight, true_and, Misses]
      rw [ih hahead hnext hnext' hpos' hfit.2 hfit'.2, threshold_after]

/-! ### The packet more -/

/-- A packet `g` that is not of the kind is the node's own; or its key is taken, and no
relay of the kind is missed for it; or it is not followed by a first packet of the kind. -/
def Harmless (good : PacketKind) (own : NodeId) (f : Flooder) (g : Packet) (ops : List FloodOp) :
    Prop :=
  g.src = own ∨
    (g.key ∈ f.seen.d.keys ∧ ∀ p, f.pending.get? g.key = some p → good.holds p.packet = true →
      ¬ Misses f.threshold g.key p.sendAt p.heard ops) ∨
    (g.key ∉ f.seen.d.keys ∧ ¬ Shadows good g.key ops)

/-- While the cache forgets nothing, the rest of the run shows the same after one packet
more of another kind exactly when that packet is harmless. -/
theorem inserted_sights_iff (ht : f.Tracked own capacity ttl) (hpos : 0 < f.threshold) {g : Packet}
    (hbad : good.holds g = false) {rssi : Option ℤ} {clk : ReceiveClock} {draw : ℚ}
    {ops : List FloodOp} (hfit : FitsRun own f ops)
    (hfit' : FitsRun own f (.receive g rssi clk draw :: ops)) :
    sights good own (f.after own (.receive g rssi clk draw)) ops = sights good own f ops ↔
      Harmless good own f g ops := by
  unfold Harmless
  by_cases hsrc : g.src = own
  · rw [ht.after_own hsrc]
    exact iff_of_true rfl (Or.inl hsrc)
  have hk : g.key.1 ≠ own := hsrc
  have ht' := ht.after hfit'.1
  have htook := ht.took hfit'.1 hsrc
  have hpending := htook.pending
  have htaken : g.key ∈ (f.after own (.receive g rssi clk draw)).seen.d.keys :=
    (htook.seen g.key).mpr (Or.inr rfl)
  cases hp : f.pending.get? g.key with
  | some p =>
    have hmem := ht.seen g.key (OrderedDict.mem_keys_iff.mpr ⟨p, hp⟩)
    have hahead : Ahead g.key p f (f.after own (.receive g rssi clk draw)) := by
      refine ⟨threshold_after f _, fun j => ?_, hp, ?_⟩
      · rw [htook.seen]
        exact ⟨fun hor => hor.elim id fun hj => hj ▸ hmem, Or.inl⟩
      · rw [hpending, Flooder.slot, hp]
    rw [ahead_sights_iff hahead hk ht ht' hpos hfit hfit'.2]
    simp [hsrc, hmem]
  | none =>
    have hm : Muted good g.key f (f.after own (.receive g rssi clk draw)) := by
      refine ⟨⟨threshold_after f _, fun j hj => ?_, ?_⟩, fun q hq => ?_, fun q hq => ?_, htaken⟩
      · rw [htook.seen]
        simp [hj]
      · rw [hpending, OrderedDict.erase_put_self]
      · cases hp.symm.trans hq
      · rw [hpending, OrderedDict.get?_put, if_pos rfl] at hq
        refine slot_bad (fun q hq => ?_) rfl (fun _ => hbad) hq
        cases hp.symm.trans hq
    rw [muted_sights_iff hm hk ht ht' hfit hfit'.2]
    by_cases hmem : g.key ∈ f.seen.d.keys <;> simp [hsrc, hmem]

end Flooder

end Beachedmesh
